import SchemaShapes.Proofs.Schema.Context
import SchemaShapes.Schema.Document

/-! Documents that take on a namespace. A document without a target namespace declares in the
namespace of the one that includes it what it would declare itself if that were its target
namespace and stood in braces before every reference without a label. The proof runs both
declarations side by side: references differ by the braces and resolve alike, and no name of a
declaration depends on whose namespace it is. -/
namespace SchemaShapes

namespace Markup

/-- A written reference that is a name alone: there is no namespace in braces and no label before
it. -/
def IsUnlabelled (written : String) : Prop :=
  (Text.trim written).toList ≠ [] ∧ (Text.trim written).toList.head? ≠ some '\x7b' ∧
    ':' ∉ (Text.trim written).toList

instance (written : String) : Decidable (IsUnlabelled written) :=
  inferInstanceAs (Decidable (_ ∧ _ ∧ _))

/-- Put a namespace before a reference that is a name alone. -/
def qualifyName (ns written : String) : String :=
  if IsUnlabelled written then "\x7b" ++ ns ++ "\x7d" ++ Text.trim written else written

/-- The fields of an element with a namespace before references that are names alone. -/
def ElementHead.qualify (ns : String) (head : ElementHead) : ElementHead :=
  { head with ref := head.ref.map (qualifyName ns), type := head.type.map (qualifyName ns) }

/-- The fields of an attribute with a namespace before references that are names alone. -/
def AttributeHead.qualify (ns : String) (head : AttributeHead) : AttributeHead :=
  { head with ref := head.ref.map (qualifyName ns), type := head.type.map (qualifyName ns) }

mutual

/-- Put a namespace before all references of a component that are names alone, at any depth. -/
def Component.qualify (ns : String) : Component → Component
  | .link kind location linked => .link kind location linked
  | .element head items => .element (head.qualify ns) (qualifyItems ns items)
  | .attribute head items => .attribute (head.qualify ns) (qualifyItems ns items)
  | .attributeGroup name ref items =>
    .attributeGroup name (ref.map (qualifyName ns)) (qualifyItems ns items)
  | .simpleType name items => .simpleType name (qualifyItems ns items)
  | .complexType name mixed items => .complexType name mixed (qualifyItems ns items)
  | .simpleContent items => .simpleContent (qualifyItems ns items)
  | .complexContent mixed items => .complexContent mixed (qualifyItems ns items)
  | .derivation method base items =>
    .derivation method (base.map (qualifyName ns)) (qualifyItems ns items)
  | .group name ref occurs items =>
    .group name (ref.map (qualifyName ns)) occurs (qualifyItems ns items)
  | .modelGroup compositor occurs items => .modelGroup compositor occurs (qualifyItems ns items)
  | .any occurs allowed => .any occurs allowed
  | .list => .list
  | .union => .union
  | .aside => .aside

def qualifyItems (ns : String) : List Component → List Component
  | [] => []
  | c :: rest => c.qualify ns :: qualifyItems ns rest

end

/-- The document with a target namespace that stands before all of its references that are names
alone. -/
def Document.qualify (m : Document) (ns : String) : Document :=
  { m with targetNamespace := some ns, items := qualifyItems ns m.items }

end Markup

namespace Schema

open Markup (AttributeHead Component ElementHead Form IsUnlabelled qualifyItems qualifyName)
open Text (cutAt cutAt_eq_none_iff isSpace)

/-! ### References -/

/-- A context of documents that have taken on a namespace, which may stand in braces. -/
structure Context.Adopted (ctx : Context) (ns : String) : Prop where
  chameleon : ctx.chameleon = true
  target : ctx.targetNamespace = some ns
  braceFree : '\x7d' ∉ ns.toList

/-- The context of documents whose target namespace is their own. -/
def Context.owned (ctx : Context) : Context := { ctx with chameleon := false }

section

variable {ctx : Context} {ns : String}

/-- The chameleon flag is asked for names alone only. -/
theorem Context.resolve_owned {written : String} (h : ¬IsUnlabelled written) :
    ctx.owned.resolve written = ctx.resolve written := by
  simp only [resolve]
  split
  · rfl
  · rfl
  · rename_i hnil hbrace
    split
    · rfl
    · rename_i hcolon
      refine absurd ⟨hnil, fun hhead => ?_, cutAt_eq_none_iff.mp hcolon⟩ h
      obtain ⟨rest, hrest⟩ := List.head?_eq_some_iff.mp hhead
      exact hbrace rest hrest

theorem Context.resolve_of_isUnlabelled {written : String} (h : IsUnlabelled written) :
    ctx.resolve written =
      .ok (.of (if ctx.chameleon then ctx.targetNamespace else none) (Text.trim written)) := by
  obtain ⟨hnil, hhead, hcolon⟩ := h
  simp only [resolve]
  split
  · rename_i hempty
    exact absurd hempty hnil
  · rename_i rest hbrace
    rw [hbrace] at hhead
    exact absurd rfl hhead
  · rw [cutAt_eq_none_iff.mpr hcolon]

theorem Context.Adopted.resolve_qualifyName (h : ctx.Adopted ns) (written : String) :
    ctx.owned.resolve (qualifyName ns written) = ctx.resolve written := by
  by_cases hw : IsUnlabelled written
  · have htext : qualifyName ns written =
        String.ofList ('\x7b' :: (ns.toList ++ '\x7d' :: (Text.trim written).toList)) := by
      rw [qualifyName, if_pos hw, ← String.toList_inj]
      simp
    have hlast : ∀ c ∈ (Text.trim written).toList.getLast?, isSpace c = false := by
      rw [Text.toList_trim]
      exact Text.getLast?_strip
    rw [htext, Context.resolve_braced h.braceFree hw.1 hw.2.2 hlast, resolve_of_isUnlabelled hw,
      h.chameleon, if_pos rfl, h.target, String.ofList_toList, String.ofList_toList]
  · rw [qualifyName, if_neg hw, resolve_owned hw]

/-- A reference that is wrong is written alike in both documents, so it is blamed alike. -/
theorem Context.Adopted.within_resolve (h : ctx.Adopted ns) (kind : ComponentKind)
    (written : String) :
    within kind (qualifyName ns written) (ctx.owned.resolve (qualifyName ns written)) =
      within kind written (ctx.resolve written) := by
  rw [h.resolve_qualifyName]
  by_cases hw : IsUnlabelled written
  · rw [Context.resolve_of_isUnlabelled hw]
    rfl
  · rw [qualifyName, if_neg hw]

theorem Context.owned_globalName (name : String) :
    ctx.owned.globalName name = ctx.globalName name :=
  rfl

theorem Context.owned_nameOfForm (name : String) (form : Form) :
    ctx.owned.nameOfForm name form = ctx.nameOfForm name form := by
  cases form <;> rfl

theorem Context.owned_localElementName (name : String) (form : Option Form) :
    ctx.owned.localElementName name form = ctx.localElementName name form :=
  owned_nameOfForm _ _

theorem Context.owned_localAttributeName (name : String) (form : Option Form) :
    ctx.owned.localAttributeName name form = ctx.localAttributeName name form :=
  owned_nameOfForm _ _

/-! ### Simple types and attributes -/

mutual

theorem varietyOf_qualify (h : ctx.Adopted ns) (name : Option QName) (c : Component) :
    varietyOf ctx.owned name (c.qualify ns) = varietyOf ctx name c := by
  cases c with
  | derivation method base items =>
    cases method with
    | extension => rfl
    | restriction =>
      cases base with
      | some base =>
        simp only [Component.qualify, varietyOf, Option.map_some, h.resolve_qualifyName]
      | none =>
        simp only [Component.qualify, varietyOf, Option.map_none, firstSimpleType_qualify h items]
  | _ => rfl

theorem variety_qualify (h : ctx.Adopted ns) (name : Option QName) (items : List Component) :
    variety ctx.owned name (qualifyItems ns items) = variety ctx name items := by
  cases items with
  | nil => rfl
  | cons c rest =>
    simp only [qualifyItems, variety, varietyOf_qualify h name c, variety_qualify h name rest]

theorem simpleTypeAt_qualify (h : ctx.Adopted ns) (c : Component) :
    simpleTypeAt ctx.owned (c.qualify ns) = simpleTypeAt ctx c := by
  cases c with
  | simpleType name items =>
    simp only [Component.qualify, simpleTypeAt]
    rw [← variety_qualify h _ items]
    rfl
  | _ => rfl

theorem firstSimpleType_qualify (h : ctx.Adopted ns) (items : List Component) :
    firstSimpleType ctx.owned (qualifyItems ns items) = firstSimpleType ctx items := by
  cases items with
  | nil => rfl
  | cons c rest =>
    simp only [qualifyItems, firstSimpleType, simpleTypeAt_qualify h c,
      firstSimpleType_qualify h rest]

end

theorem declareSimpleType_qualify (h : ctx.Adopted ns) (name : Option String)
    (items : List Component) :
    declareSimpleType ctx.owned name (qualifyItems ns items) = declareSimpleType ctx name items := by
  simp only [declareSimpleType]
  rw [← variety_qualify h _ items]
  rfl

theorem declareAttribute_qualify (h : ctx.Adopted ns) (name : QName) (head : AttributeHead)
    (items : List Component) :
    declareAttribute ctx.owned name (head.qualify ns) (qualifyItems ns items) =
      declareAttribute ctx name head items := by
  obtain ⟨_, _, type, _, _⟩ := head
  cases type with
  | some type => simp only [declareAttribute, AttributeHead.qualify, Option.map_some,
      h.resolve_qualifyName]
  | none =>
    simp only [declareAttribute, AttributeHead.qualify, Option.map_none, firstSimpleType_qualify h]
    cases firstSimpleType ctx items <;> rfl

theorem declareGlobalAttribute_qualify (h : ctx.Adopted ns) (head : AttributeHead)
    (items : List Component) :
    declareGlobalAttribute ctx.owned (head.qualify ns) (qualifyItems ns items) =
      declareGlobalAttribute ctx head items := by
  have hdecl := fun name => declareAttribute_qualify h name head items
  have hname : (head.qualify ns).name = head.name := rfl
  simp only [declareGlobalAttribute, hname, hdecl, Context.owned_globalName]

theorem declareLocalAttribute_qualify (h : ctx.Adopted ns) (head : AttributeHead)
    (items : List Component) :
    declareLocalAttribute ctx.owned (head.qualify ns) (qualifyItems ns items) =
      declareLocalAttribute ctx head items := by
  have hdecl := fun name => declareAttribute_qualify h name head items
  obtain ⟨name, ref, _, _, _⟩ := head
  cases ref with
  | some ref =>
    simp only [declareLocalAttribute, AttributeHead.qualify, Option.map_some, h.within_resolve]
  | none =>
    cases name with
    | some name =>
      simp only [AttributeHead.qualify, Option.map_none] at hdecl
      simp only [declareLocalAttribute, AttributeHead.qualify, Option.map_none, hdecl,
        Context.owned_localAttributeName]
    | none => rfl

theorem declareAttributeGroupRef_qualify (h : ctx.Adopted ns) (ref : Option String) :
    declareAttributeGroupRef ctx.owned (ref.map (qualifyName ns)) =
      declareAttributeGroupRef ctx ref := by
  cases ref with
  | some ref => simp only [declareAttributeGroupRef, Option.map_some, h.within_resolve]
  | none => rfl

theorem attributeItemOf_qualify (h : ctx.Adopted ns) (c : Component) :
    attributeItemOf ctx.owned (c.qualify ns) = attributeItemOf ctx c := by
  cases c with
  | «attribute» head items =>
    simp only [Component.qualify, attributeItemOf, declareLocalAttribute_qualify h]
  | attributeGroup name ref items =>
    simp only [Component.qualify, attributeItemOf, declareAttributeGroupRef_qualify h]
  | _ => simp only [Component.qualify, attributeItemOf]

theorem declareAttributeItems_qualify (h : ctx.Adopted ns) (items : List Component) :
    declareAttributeItems ctx.owned (qualifyItems ns items) = declareAttributeItems ctx items := by
  have hitems : (qualifyItems ns items).filterMap (attributeItemOf ctx.owned) =
      items.filterMap (attributeItemOf ctx) := by
    induction items with
    | nil => simp only [qualifyItems, List.filterMap_nil]
    | cons c rest ih =>
      simp only [qualifyItems, List.filterMap_cons, attributeItemOf_qualify h, ih]
  rw [declareAttributeItems, hitems, declareAttributeItems]

theorem declareAttributeGroup_qualify (h : ctx.Adopted ns) (name : Option String)
    (items : List Component) :
    declareAttributeGroup ctx.owned name (qualifyItems ns items) =
      declareAttributeGroup ctx name items := by
  simp only [declareAttributeGroup, declareAttributeItems_qualify h, Context.owned_globalName]

/-! ### Elements, particles and complex types -/

theorem declareGroupRef_qualify (h : ctx.Adopted ns) (ref : Option String) (occurs : Occurs) :
    declareGroupRef ctx.owned (ref.map (qualifyName ns)) occurs =
      declareGroupRef ctx ref occurs := by
  cases ref with
  | some ref => simp only [declareGroupRef, Option.map_some, h.within_resolve]
  | none => rfl

theorem declareElement_qualify (h : ctx.Adopted ns) (name : QName) (head : ElementHead)
    (inline : Option (Declared ElementType)) :
    declareElement ctx.owned name (head.qualify ns) inline =
      declareElement ctx name head inline := by
  obtain ⟨_, _, type, _, _, _⟩ := head
  cases type with
  | some type => simp only [declareElement, ElementHead.qualify, Option.map_some,
      h.resolve_qualifyName]
  | none => rfl

theorem declareLocalElement_qualify (h : ctx.Adopted ns) (head : ElementHead)
    (inline : Option (Declared ElementType)) :
    declareLocalElement ctx.owned (head.qualify ns) inline =
      declareLocalElement ctx head inline := by
  have hdecl := fun name => declareElement_qualify h name head inline
  obtain ⟨name, ref, _, _, _, _⟩ := head
  cases ref with
  | some ref =>
    simp only [declareLocalElement, ElementHead.qualify, Option.map_some, h.within_resolve]
  | none =>
    cases name with
    | some name =>
      simp only [ElementHead.qualify, Option.map_none] at hdecl
      simp only [declareLocalElement, ElementHead.qualify, Option.map_none, hdecl,
        Context.owned_localElementName]
    | none => rfl

theorem complexTypeOf_owned (name : Option String) (body : Declared Body) :
    complexTypeOf ctx.owned name body = complexTypeOf ctx name body := by
  cases name <;> simp only [complexTypeOf, Option.map_some, Option.map_none,
    Context.owned_globalName]

mutual

theorem inlineTypeOf_qualify (h : ctx.Adopted ns) (c : Component) :
    inlineTypeOf ctx.owned (c.qualify ns) = inlineTypeOf ctx c := by
  cases c with
  | complexType name mixed items =>
    simp only [Component.qualify, inlineTypeOf, complexTypeOf_owned, declareBody_qualify h _ items]
  | simpleType name items =>
    simp only [Component.qualify, inlineTypeOf, declareSimpleType_qualify h]
  | _ => simp only [Component.qualify, inlineTypeOf]

theorem inlineType_qualify (h : ctx.Adopted ns) (items : List Component) :
    inlineType ctx.owned (qualifyItems ns items) = inlineType ctx items := by
  cases items with
  | nil => rfl
  | cons c rest =>
    simp only [qualifyItems, inlineType, inlineTypeOf_qualify h c, inlineType_qualify h rest]

theorem particleOf_qualify (h : ctx.Adopted ns) (c : Component) :
    particleOf ctx.owned (c.qualify ns) = particleOf ctx c := by
  cases c with
  | element head items =>
    simp only [Component.qualify, particleOf, declareLocalElement_qualify h,
      inlineType_qualify h items]
  | group name ref occurs items =>
    simp only [Component.qualify, particleOf, declareGroupRef_qualify h]
  | modelGroup compositor occurs items =>
    simp only [Component.qualify, particleOf, declareParticles_qualify h items]
  | _ => simp only [Component.qualify, particleOf]

theorem declareParticles_qualify (h : ctx.Adopted ns) (items : List Component) :
    declareParticles ctx.owned (qualifyItems ns items) = declareParticles ctx items := by
  cases items with
  | nil => rfl
  | cons c rest =>
    simp only [qualifyItems, declareParticles, particleOf_qualify h c,
      declareParticles_qualify h rest]

theorem partOf_qualify (h : ctx.Adopted ns) (c : Component) :
    partOf ctx.owned (c.qualify ns) = partOf ctx c := by
  cases c with
  | simpleType name items => simp only [Component.qualify, partOf, declareSimpleType_qualify h]
  | group name ref occurs items => simp only [Component.qualify, partOf, declareGroupRef_qualify h]
  | modelGroup compositor occurs items =>
    simp only [Component.qualify, partOf, declareParticles_qualify h items]
  | «attribute» head items => simp only [Component.qualify, partOf, declareLocalAttribute_qualify h]
  | attributeGroup name ref items =>
    simp only [Component.qualify, partOf, declareAttributeGroupRef_qualify h]
  | _ => simp only [Component.qualify, partOf]

theorem declareParts_qualify (h : ctx.Adopted ns) (items : List Component) :
    declareParts ctx.owned (qualifyItems ns items) = declareParts ctx items := by
  cases items with
  | nil => rfl
  | cons c rest =>
    simp only [qualifyItems, declareParts, partOf_qualify h c, declareParts_qualify h rest]

theorem derivationOf_qualify (h : ctx.Adopted ns) (c : Component) :
    derivationOf ctx.owned (c.qualify ns) = derivationOf ctx c := by
  cases c with
  | derivation method base items =>
    cases base with
    | none => simp only [Component.qualify, derivationOf, Option.map_none,
        declareParts_qualify h items, Option.mapM_none]
    | some base => simp only [Component.qualify, derivationOf, Option.map_some,
        declareParts_qualify h items, Option.mapM_some, h.resolve_qualifyName]
  | _ => simp only [Component.qualify, derivationOf]

theorem firstDerivation_qualify (h : ctx.Adopted ns) (items : List Component) :
    firstDerivation ctx.owned (qualifyItems ns items) = firstDerivation ctx items := by
  cases items with
  | nil => rfl
  | cons c rest =>
    simp only [qualifyItems, firstDerivation, derivationOf_qualify h c,
      firstDerivation_qualify h rest]

theorem bodyItemOf_qualify (h : ctx.Adopted ns) (mixed : Bool) (c : Component) :
    bodyItemOf ctx.owned mixed (c.qualify ns) = bodyItemOf ctx mixed c := by
  cases c with
  | simpleContent items =>
    simp only [Component.qualify, bodyItemOf, firstDerivation_qualify h items]
  | complexContent ownMixed items =>
    simp only [Component.qualify, bodyItemOf, firstDerivation_qualify h items]
  | group name ref occurs items =>
    simp only [Component.qualify, bodyItemOf, declareGroupRef_qualify h]
  | modelGroup compositor occurs items =>
    simp only [Component.qualify, bodyItemOf, declareParticles_qualify h items]
  | «attribute» head items =>
    simp only [Component.qualify, bodyItemOf, declareLocalAttribute_qualify h]
  | attributeGroup name ref items =>
    simp only [Component.qualify, bodyItemOf, declareAttributeGroupRef_qualify h]
  | _ => simp only [Component.qualify, bodyItemOf]

theorem declareBody_qualify (h : ctx.Adopted ns) (mixed : Bool) (items : List Component) :
    declareBody ctx.owned mixed (qualifyItems ns items) = declareBody ctx mixed items := by
  cases items with
  | nil => rfl
  | cons c rest =>
    simp only [qualifyItems, declareBody, bodyItemOf_qualify h mixed c,
      declareBody_qualify h mixed rest]

end

/-! ### Documents -/

theorem firstModelGroup_qualify (h : ctx.Adopted ns) (items : List Component) :
    firstModelGroup ctx.owned (qualifyItems ns items) = firstModelGroup ctx items := by
  induction items with
  | nil => rfl
  | cons c rest ih =>
    cases c with
    | modelGroup compositor occurs inner =>
      simp only [qualifyItems, Component.qualify, firstModelGroup, declareParticles_qualify h]
    | _ => simpa only [qualifyItems, Component.qualify, firstModelGroup] using ih

theorem declareGroup_qualify (h : ctx.Adopted ns) (name : Option String) (items : List Component) :
    declareGroup ctx.owned name (qualifyItems ns items) = declareGroup ctx name items := by
  simp only [declareGroup, firstModelGroup_qualify h, Context.owned_globalName]

theorem declareGlobalElement_qualify (h : ctx.Adopted ns) (head : ElementHead)
    (items : List Component) :
    declareGlobalElement ctx.owned (head.qualify ns) (qualifyItems ns items) =
      declareGlobalElement ctx head items := by
  have hdecl := fun name => declareElement_qualify h name head (inlineType ctx items)
  have hname : (head.qualify ns).name = head.name := rfl
  simp only [declareGlobalElement, inlineType_qualify h, hname, hdecl, Context.owned_globalName]

theorem declareComplexType_qualify (h : ctx.Adopted ns) (name : Option String)
    (mixed : Option Bool) (items : List Component) :
    declareComplexType ctx.owned name mixed (qualifyItems ns items) =
      declareComplexType ctx name mixed items := by
  rw [declareComplexType, complexTypeOf_owned, declareBody_qualify h, declareComplexType]

theorem declareItems_qualify (h : ctx.Adopted ns) (items : List Component) :
    declareItems ctx.owned (qualifyItems ns items) = declareItems ctx items := by
  induction items with
  | nil => rfl
  | cons c rest ih =>
    cases c with
    | link kind location linked =>
      simp only [qualifyItems, Component.qualify, declareItems, ih]
    | element head inner =>
      simp only [qualifyItems, Component.qualify, declareItems, ih, declareGlobalElement_qualify h]
    | complexType name mixed inner =>
      simp only [qualifyItems, Component.qualify, declareItems, ih, declareComplexType_qualify h]
    | simpleType name inner =>
      simp only [qualifyItems, Component.qualify, declareItems, ih, declareSimpleType_qualify h]
    | group name ref occurs inner =>
      simp only [qualifyItems, Component.qualify, declareItems, ih, declareGroup_qualify h]
    | attributeGroup name ref inner =>
      simp only [qualifyItems, Component.qualify, declareItems, ih, declareAttributeGroup_qualify h]
    | «attribute» head inner =>
      simp only [qualifyItems, Component.qualify, declareItems, ih,
        declareGlobalAttribute_qualify h]
    | _ => simpa only [qualifyItems, Component.qualify, declareItems] using ih

end

/-- To include a document without a target namespace into a namespace is to write the namespace into
it, as its target namespace and in braces before every reference, at any depth, that is a name
alone. Both give the same declarations, or the same error. -/
theorem Document.declare_included (m : Markup.Document) {ns : String}
    (hm : ∀ own ∈ m.targetNamespace, own = "") (hne : ns ≠ "") (hns : '\x7d' ∉ ns.toList) :
    Document.declare m (some ns) = Document.declare (m.qualify ns) none := by
  have hown : m.targetNamespace.filter (· ≠ "") = none := by simpa using hm
  have hadopted : (Context.ofDocument m (some ns)).Adopted ns := by
    refine ⟨?_, ?_, hns⟩ <;> simp only [Context.ofDocument, hown] <;> rfl
  have howned : Context.ofDocument (m.qualify ns) none = (Context.ofDocument m (some ns)).owned := by
    have hkept : (some ns).filter (· ≠ "") = some ns := by simp [hne]
    simp only [Context.ofDocument, Context.owned, Markup.Document.qualify, hown, hkept]
    rfl
  rw [Document.declare, Document.declare, howned]
  exact (declareItems_qualify hadopted m.items).symm

/-- Types of a shop: references at several depths, with and without a namespace. -/
def shopTypes : Markup.Document where
  targetNamespace := none
  elementForm := some .qualified
  attributeForm := none
  items :=
    [.complexType (some "Order") none
      [.complexContent none
        [.derivation .extension (some "Base")
          [.modelGroup .sequence .once
            [.element ⟨none, some " note ", none, none, none, .once⟩ [],
              .element ⟨some "total", none, some "\x7burn:money\x7dSum", none, none, .once⟩ []],
            .attributeGroup none (some "marks") []]]],
      .simpleType (some "Code") [.derivation .restriction (some "Size") []]]

theorem declare_included_shopTypes :
    (∀ own ∈ shopTypes.targetNamespace, own = "") ∧ "urn:shop" ≠ "" ∧
      '\x7d' ∉ "urn:shop".toList ∧
      (Document.declare shopTypes (some "urn:shop")).isOk ∧
      Document.declare shopTypes (some "urn:shop") =
        Document.declare (shopTypes.qualify "urn:shop") none :=
  ⟨nofun, by decide, by decide, by decide +kernel,
    Document.declare_included shopTypes nofun (by decide) (by decide)⟩

end Schema

end SchemaShapes
