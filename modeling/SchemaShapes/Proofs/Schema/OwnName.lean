import SchemaShapes.Proofs.Schema.Context
import SchemaShapes.Proofs.Xml.Root
import SchemaShapes.Schema.Document

/-! References of a document to its own components. A label may be bound to the very text that the
target namespace is written with. A name with that label is then expanded to the name that the
document gives to its component, but only if the text has no reference, which would be replaced in
the target namespace alone, and no closing brace, which would be taken for the end of the
namespace. -/
namespace SchemaShapes.Markup

open Xml (Attribute Tag firstTag? unescape)

theorem lookup_of_mem {fields : Fields} {name : String} {value : List Char}
    (hnodup : (fields.map (·.1)).Nodup) (h : (name, value) ∈ fields) :
    fields.lookup name = some value := by
  obtain ⟨before, after, rfl⟩ := List.append_of_mem h
  refine List.lookup_eq_some_iff.mpr ⟨before, after, rfl, fun p hp => ?_⟩
  rw [List.map_append, List.nodup_append] at hnodup
  have hne : p.1 ≠ name := hnodup.2.2 p.1 (List.mem_map_of_mem hp) name (by simp)
  simpa using hne.symm

/-- A field that is read is found by the local name of its key. -/
theorem lookup_readFields {keys : List String} {t : Tag} {fields : Fields} {a : Attribute}
    {name : String} (h : readFields keys t = some fields) (ha : a ∈ t.attributes)
    (hname : fieldName? a.key = some name) (hkey : name ∈ keys) :
    fields.lookup name = some a.value := by
  unfold readFields at h
  split at h
  · cases h
  · rename_i attributes hread
    have hattributes : t.attributes = attributes := by rw [Tag.attributes, hread]
    dsimp only at h
    split at h
    · rename_i hnodup
      obtain rfl := Option.some.inj h
      refine lookup_of_mem hnodup (List.mem_filterMap.mpr ⟨a, hattributes ▸ ha, ?_⟩)
      simp [hname, hkey]
    · cases h

/-- The target namespace of a document is what stands for it in the first tag. -/
theorem targetNamespace_of_read? {cs : List Char} {m : Document} {t : Tag} {a : Attribute}
    (hm : Document.read? cs = some m) (ht : firstTag? (Xml.read cs).events = some t)
    (ha : a ∈ t.attributes) (hkey : a.key = "targetNamespace".toList) :
    ∃ own, unescape a.value = some own ∧ m.targetNamespace = some (String.ofList own) := by
  obtain ⟨n, hn, hm⟩ := Option.bind_eq_some_iff.mp hm
  obtain ⟨t', children, rfl, ht'⟩ := Xml.exists_element_of_readRoot hn
  obtain rfl : t' = t := Option.some.inj (ht'.symm.trans ht)
  obtain ⟨fields, hfields, hm⟩ := Option.bind_eq_some_iff.mp hm
  obtain ⟨items, -, hm⟩ := Option.bind_eq_some_iff.mp hm
  obtain ⟨namespc, hns, hm⟩ := Option.bind_eq_some_iff.mp hm
  obtain ⟨elementForm, -, hm⟩ := Option.bind_eq_some_iff.mp hm
  obtain ⟨attributeForm, -, hm⟩ := Option.bind_eq_some_iff.mp hm
  cases hm
  have hname : fieldName? a.key = some "targetNamespace" := by
    rw [hkey]
    decide +kernel
  have hlookup := lookup_readFields hfields ha hname (by simp [Kind.keys])
  rw [Fields.text, Fields.read, hlookup] at hns
  obtain ⟨text, htext, rfl⟩ := Option.map_eq_some_iff.mp hns
  obtain ⟨own, hown, rfl⟩ := Option.map_eq_some_iff.mp htext
  exact ⟨own, hown, rfl⟩

end SchemaShapes.Markup

namespace SchemaShapes.Schema

open Text (cutAt cutAt_eq_none_iff cutAt_of_notMem eq_of_cutAt getLast?_strip isSpace notMem_of_cutAt
  strip)
open Xml (Attribute Event Tag escape firstTag? nameKeys openTags qualifyEvents
  unescape)

/-! ### Expanded names -/

section

variable {ctx : Context} {ns own name : List Char}

theorem Context.resolve_eq_globalName_iff (hne : ns ≠ []) (hown : unescape ns = some own)
    (htarget : ctx.targetNamespace = some (String.ofList own)) (hname : name ≠ [])
    (hcolon : ':' ∉ name) (hlast : ∀ c ∈ name.getLast?, isSpace c = false) :
    ctx.resolve (String.ofList ('\x7b' :: ns ++ '\x7d' :: name)) =
        .ok (ctx.globalName (String.ofList name)) ↔ '&' ∉ ns ∧ '\x7d' ∉ ns := by
  obtain ⟨-, hshorter, hnonempty⟩ := Xml.length_of_unescape hown
  have hglobal : ctx.globalName (String.ofList name) =
      ⟨some (String.ofList own), String.ofList name⟩ := by
    simp [Context.globalName, QName.of, htarget, hnonempty hne]
  have hbody : ∀ c ∈ (ns ++ '\x7d' :: name).getLast?, isSpace c = false := by
    rwa [List.getLast?_append_of_ne_nil _ (List.cons_ne_nil _ _), List.getLast?_cons_of_ne_nil hname]
  rw [hglobal]
  by_cases hbrace : '\x7d' ∈ ns
  · -- The namespace ends at its own brace, and the rest of it becomes a part of the local name.
    obtain ⟨⟨before, after⟩, hcut⟩ : ∃ cut, cutAt ['\x7d'] ns = some cut := by
      rw [← Option.ne_none_iff_exists', Ne, cutAt_eq_none_iff, not_not]
      exact hbrace
    have hns : ns ++ '\x7d' :: name = before ++ '\x7d' :: (after ++ '\x7d' :: name) := by
      rw [eq_of_cutAt hcut]
      simp
    have hlonger : after ++ '\x7d' :: name ≠ name := by
      intro h
      have hlength := congrArg List.length h
      simp only [List.length_append, List.length_cons] at hlength
      omega
    rw [List.cons_append, Context.resolve_brace (by simp) hbody, hns,
      cutAt_of_notMem (notMem_of_cutAt hcut)]
    refine iff_of_false (fun h => ?_) fun h => h.2 hbrace
    dsimp only at h
    split at h
    · cases h
    · have hbase := congrArg QName.name (Except.ok.inj h)
      exact hlonger (String.ofList_injective hbase)
  · rw [List.cons_append, Context.resolve_braced hbrace hname hcolon hlast]
    have hof : QName.of (some (String.ofList ns)) (String.ofList name) =
        ⟨some (String.ofList ns), String.ofList name⟩ := by
      simp [QName.of, hne]
    simp only [hof, Except.ok.injEq, QName.mk.injEq, Option.some.injEq, and_true,
      String.ofList_inj, hbrace, not_false_eq_true]
    constructor
    · rintro rfl hamp
      exact absurd (hshorter hamp) (lt_irrefl _)
    · intro hamp
      exact Option.some.inj ((Xml.unescape_of_notMem hamp).symm.trans hown)

end

/-! ### References -/

/-- The value of an attribute for names is a name with a label. -/
structure LabelledName (a : Xml.Attribute) (label name : List Char) : Prop where
  key : a.key ∈ nameKeys
  value : (unescape a.value).map (strip isSpace) = some (label ++ ':' :: name)
  label_ne : label ≠ []
  label_colon : ':' ∉ label
  label_brace : label.head? ≠ some '\x7b'
  name_ne : name ≠ []
  name_colon : ':' ∉ name

/-- An attribute is written in the tag of an event of a qualified document. -/
def WrittenAt (cs out : List Char) (i : ℕ) (b : Xml.Attribute) : Prop :=
  ∃ fs f name, ∃ bs : List Xml.Attribute, qualifyEvents [] (Xml.read cs).events = .ok fs ∧
    out = fs.flatMap Event.render ∧ fs[i]? = some f ∧
    f.tag? = some ⟨name, bs.flatMap Xml.Attribute.render⟩ ∧ b ∈ bs

/-- A name whose label has a namespace is written with that namespace in braces. -/
theorem LabelledName.qualifyAttribute {scope : Xml.Scope} {a b : Xml.Attribute}
    {label name ns : List Char} (ha : LabelledName a label name)
    (hns : scope.namespaceOf label = some ns) (h : Xml.qualifyAttribute scope a = .ok b) :
    b.key = a.key ∧ unescape b.value = some ('\x7b' :: ns ++ '\x7d' :: name) := by
  obtain ⟨value, hvalue, hstrip⟩ := Option.map_eq_some_iff.mp ha.value
  have hqualified : scope.qualify? (strip isSpace value) =
      some ('\x7b' :: ns ++ '\x7d' :: name) := by
    rw [hstrip]
    exact Xml.Scope.qualify?_of_namespaceOf hns ha.label_ne ha.label_colon ha.label_brace ha.name_ne
  rw [Xml.qualifyAttribute, if_pos ha.key, hvalue] at h
  simp only [hqualified] at h
  cases h
  exact ⟨rfl, Xml.unescape_escape _⟩

theorem LabelledName.getLast {a : Xml.Attribute} {label name : List Char}
    (h : LabelledName a label name) : ∀ c ∈ name.getLast?, isSpace c = false := by
  obtain ⟨value, -, hstrip⟩ := Option.map_eq_some_iff.mp h.value
  have hlast : ∀ c ∈ (strip isSpace value).getLast?, isSpace c = false := getLast?_strip
  rw [hstrip, List.getLast?_append_of_ne_nil _ (List.cons_ne_nil _ _),
    List.getLast?_cons_of_ne_nil h.name_ne] at hlast
  exact hlast

/-- What a kept tag has for attributes that are not for names. -/
theorem mem_attributes_of_kept {t u : Tag} {a : Xml.Attribute} (h : t.Kept u)
    (ha : a ∈ t.attributes) (hkey : a.key ∉ nameKeys) : a ∈ u.attributes := by
  obtain ⟨-, as, bs, has, hbs, hkept⟩ := h
  rw [Tag.attributes, has] at ha
  obtain ⟨b, hb, hsame, hvalue⟩ := exists_of_mem_left hkept ha
  have heq : b = a := by
    rcases hvalue with hvalue | ⟨hname, -⟩
    · cases a
      cases b
      simp_all
    · exact absurd hname hkey
  rw [Tag.attributes, hbs]
  exact heq ▸ hb

/-- Let a document write its target namespace in the first tag, and let a label be bound to the same
text where a reference with that label stands. What is written for the reference then resolves to
the name of the document's own component exactly if the text has neither a reference to a character
nor a closing brace. -/
theorem own_reference_resolves_iff {cs qualified : List Char} {m : Markup.Document}
    {includer : Option String} (hqualified : Xml.qualify cs = .ok qualified)
    (hm : Markup.Document.read? qualified = some m) {root : Tag}
    (hroot : firstTag? (Xml.read cs).events = some root) (hplain : root.Plain) {ns : List Char}
    (hne : ns ≠ []) (htarget : ⟨"targetNamespace".toList, ns⟩ ∈ root.attributes) {i : ℕ}
    {e : Event} {t : Tag} (he : (Xml.read cs).events[i]? = some e) (ht : e.tag? = some t)
    {a : Xml.Attribute} (ha : a ∈ t.attributes) {label name : List Char}
    (hname : LabelledName a label name)
    (hlabel : (t :: openTags ((Xml.read cs).events.take i)).findSome? (Tag.binding? label) =
      some ns) :
    ∃ b written, WrittenAt cs qualified i b ∧ b.key = a.key ∧ unescape b.value = some written ∧
      ((Context.ofDocument m includer).resolve (String.ofList written) =
          .ok ((Context.ofDocument m includer).globalName (String.ofList name)) ↔
        '&' ∉ ns ∧ '\x7d' ∉ ns) := by
  -- The target namespace is what the text of it stands for.
  obtain ⟨u, hu, hfirst⟩ := Xml.firstTag?_qualify hqualified hroot hplain
  have hkey : "targetNamespace".toList ∉ nameKeys := by decide +kernel
  have hwritten := mem_attributes_of_kept (hplain.copy hu).1 htarget hkey
  obtain ⟨own, hown, htns⟩ := Markup.targetNamespace_of_read? hm hfirst hwritten rfl
  have hcontext : (Context.ofDocument m includer).targetNamespace = some (String.ofList own) := by
    have hownne : own ≠ [] := (Xml.length_of_unescape hown).2.2 hne
    simp [Context.ofDocument, htns, Option.filter, hownne]
  -- The reference is qualified in the scope of the tags around it.
  obtain ⟨es, hes, hqualified⟩ := exists_of_bind_eq_ok hqualified
  obtain ⟨fs, hfs, hout⟩ := exists_of_bind_eq_ok hqualified
  obtain rfl : (Xml.read cs).events = es := by
    unfold Xml.Reading.all at hes
    split at hes
    · cases hes
    · exact Except.ok.inj hes
  obtain ⟨scopes, v, inner, f, hscoped, hv, hf, hfv⟩ :=
    Xml.exists_qualifyTag hfs Xml.Scoped.nil he ht
  obtain ⟨-, -, bs, hbs, rfl⟩ := Xml.eq_of_qualifyTag hv
  obtain ⟨b, hb, hab⟩ := exists_of_mem_left hbs ha
  have hns : inner.namespaceOf label = some ns :=
    (hscoped.cons hv).namespaceOf hname.label_ne hlabel hne
  obtain ⟨hkey, hvalue⟩ := hname.qualifyAttribute hns hab
  refine ⟨b, _, ⟨fs, f, t.name, bs, hfs, (Except.ok.inj hout).symm, hf, hfv, hb⟩, hkey, hvalue, ?_⟩
  exact Context.resolve_eq_globalName_iff hne hown hcontext hname.name_ne hname.name_colon
    hname.getLast

/-- An element that refers to a type of its own document. -/
def ownText : List Char :=
  "<schema xmlns:p='urn:p' targetNamespace=\"urn:p\"><element type=' p:T'/></schema>".toList

/-- The same with the reference qualified. -/
def qualifiedOwnText : List Char :=
  "<schema xmlns:p=\"urn:p\" targetNamespace=\"urn:p\"><element type=\"\x7burn:p\x7dT\"/></schema>".toList

def ownRoot : Tag := ⟨"schema".toList, " xmlns:p='urn:p' targetNamespace=\"urn:p\"".toList⟩

def ownTag : Tag := ⟨"element".toList, " type=' p:T'".toList⟩

theorem own_reference_resolves : ∃ m b written, Xml.qualify ownText = .ok qualifiedOwnText ∧
    Markup.Document.read? qualifiedOwnText = some m ∧
    WrittenAt ownText qualifiedOwnText 1 b ∧ unescape b.value = some written ∧
    (Context.ofDocument m none).resolve (String.ofList written) =
      .ok ((Context.ofDocument m none).globalName (String.ofList ['T'])) := by
  have hqualified : Xml.qualify ownText = .ok qualifiedOwnText :=
    eq_ok_of_toOption (by decide +kernel)
  have hread : (Markup.Document.read? qualifiedOwnText).isSome := by decide +kernel
  obtain ⟨m, hm⟩ := Option.isSome_iff_exists.mp hread
  have hevents : (Xml.read ownText).events =
      [.start ownRoot, .empty ownTag, .finish "schema".toList] := by decide +kernel
  have hplain : ownRoot.Plain := by decide +kernel
  have htarget : ⟨"targetNamespace".toList, "urn:p".toList⟩ ∈ ownRoot.attributes := by
    decide +kernel
  have hname : LabelledName ⟨"type".toList, " p:T".toList⟩ ['p'] ['T'] :=
    ⟨by decide +kernel, by decide +kernel, by decide, by decide, by decide, by decide, by decide⟩
  have hmem : ⟨"type".toList, " p:T".toList⟩ ∈ ownTag.attributes := by decide +kernel
  have hlabel : [ownTag, ownRoot].findSome? (Tag.binding? ['p']) = some "urn:p".toList := by
    decide +kernel
  have hroot : firstTag? (Xml.read ownText).events = some ownRoot := by rw [hevents]; rfl
  have he : (Xml.read ownText).events[1]? = some (.empty ownTag) := by rw [hevents]; rfl
  have hopen : openTags ((Xml.read ownText).events.take 1) = [ownRoot] := by rw [hevents]; rfl
  have hbound : (ownTag :: openTags ((Xml.read ownText).events.take 1)).findSome?
      (Tag.binding? ['p']) = some "urn:p".toList := by
    rw [hopen]
    exact hlabel
  obtain ⟨b, written, hb, -, hwritten, hresolve⟩ := own_reference_resolves_iff hqualified hm hroot
    hplain (by decide +kernel) htarget he rfl hmem hname hbound
  exact ⟨m, b, written, hqualified, hm, hb, hwritten, hresolve.mpr (by decide +kernel)⟩

/-- The name of the type of an element, if it is named. -/
def ElementType.name? : ElementType → Option QName
  | .named q => some q
  | _ => none

/-- A namespace with a reference to a character, in an own reference and in the target. -/
def queryText : String :=
  "<schema xmlns:p=\"urn:a&amp;b\" targetNamespace=\"urn:a&amp;b\"><element name=\"e\" " ++
    "type=\"p:T\"/><simpleType name=\"T\"><list/></simpleType></schema>"

/-- In a reference the namespace stays as it is written, but the type is not declared there. -/
theorem own_reference_lost : ∃ d, Document.parse queryText none = .ok d ∧
    d.elements.map (·.type.name?) = [some ⟨some "urn:a&amp;b", "T"⟩] ∧
    d.simpleTypes.map (·.name) = [some ⟨some "urn:a&b", "T"⟩] := by
  have hparse : (Document.parse queryText none).toOption.any fun d =>
      decide (d.elements.map (·.type.name?) = [some ⟨some "urn:a&amp;b", "T"⟩] ∧
        d.simpleTypes.map (·.name) = [some ⟨some "urn:a&b", "T"⟩]) := by
    decide +kernel
  obtain ⟨d, hd, hnames⟩ := (Option.any_eq_true _ _).mp hparse
  exact ⟨d, eq_ok_of_toOption hd, of_decide_eq_true hnames⟩

end SchemaShapes.Schema
