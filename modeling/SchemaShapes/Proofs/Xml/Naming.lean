import SchemaShapes.Proofs.Xml.Scope

/-! Names in a document. A tag stands inside the elements that have started before it and are not
closed yet, and what a name in it is expanded to is said by the declarations in the tag and in the
start tags of those elements, and by nothing else. -/
namespace SchemaShapes.Xml

open Text (cutAt cutAt_eq_none_iff cutAt_of_notMem eq_of_cutAt isSpace notMem_of_cutAt strip)

/-! ### Open elements -/

/-- Events that make up whole elements and what stands between them. -/
inductive Whole : List Event → Prop
  | nil : Whole []
  | event {e : Event} (hstart : ∀ t, e ≠ .start t) (hfinish : ∀ name, e ≠ .finish name) : Whole [e]
  | element {t : Tag} {inner : List Event} (h : Whole inner) :
    Whole (.start t :: inner ++ [.finish t.name])
  | append {es fs : List Event} (hes : Whole es) (hfs : Whole fs) : Whole (es ++ fs)

/-- Events that lead into elements with the given start tags, innermost first. Elements that are
whole by then are passed over. -/
inductive LeadsInto : List Event → List Tag → Prop
  | outside {es : List Event} (h : Whole es) : LeadsInto es []
  | inside {es inner : List Event} {tags : List Tag} {t : Tag} (h : LeadsInto es tags)
    (hinner : Whole inner) : LeadsInto (es ++ .start t :: inner) (t :: tags)

theorem Whole.opens {es : List Event} (h : Whole es) (tags : List Tag) :
    es.foldl Event.opens tags = tags := by
  induction h generalizing tags with
  | nil => rfl
  | @event e hstart hfinish =>
    cases e with
    | start t => exact absurd rfl (hstart t)
    | finish name => exact absurd rfl (hfinish name)
    | _ => rfl
  | @element t inner _ ih =>
    rw [List.cons_append, List.foldl_cons, List.foldl_append, ih]
    rfl
  | append _ _ ihes ihfs => rw [List.foldl_append, ihes, ihfs]

namespace LeadsInto

variable {es fs : List Event} {tags tags' : List Tag} {t : Tag}

theorem openTags_eq (h : LeadsInto es tags) : openTags es = tags := by
  induction h with
  | outside h => exact h.opens []
  | @inside es inner tags t _ hinner ih =>
    rw [openTags, List.foldl_append, List.foldl_cons, ← openTags, ih, hinner.opens]
    rfl

/-- The elements that events lead into are determined by the events. -/
theorem unique (h : LeadsInto es tags) (h' : LeadsInto es tags') : tags' = tags :=
  h'.openTags_eq.symm.trans h.openTags_eq

theorem append (h : LeadsInto es tags) (hfs : Whole fs) : LeadsInto (es ++ fs) tags := by
  cases h with
  | outside h => exact .outside (h.append hfs)
  | inside h hinner =>
    rw [List.append_assoc, List.cons_append]
    exact h.inside (hinner.append hfs)

/-- The end tag of the innermost element makes it whole. -/
theorem finish (h : LeadsInto es (t :: tags)) : LeadsInto (es ++ [.finish t.name]) tags := by
  cases h with
  | inside h hinner =>
    rw [List.append_assoc]
    exact h.append hinner.element

end LeadsInto

/-- Where end tags fit, there is a stack of open elements, and its names are what end tags are
compared with. -/
theorem exists_leadsInto {es : List Event} {opened : List (List Char)}
    (h : es.foldlM openAfter [] = .ok opened) :
    ∃ tags, LeadsInto es tags ∧ tags.map Tag.name = opened := by
  induction es using List.reverseRecOn generalizing opened with
  | nil =>
    cases h
    exact ⟨[], .outside .nil, rfl⟩
  | append_singleton es e ih =>
    rw [List.foldlM_append] at h
    obtain ⟨before, hbefore, h⟩ := exists_of_bind_eq_ok h
    obtain ⟨tags, htags, rfl⟩ := ih hbefore
    rw [List.foldlM_cons] at h
    obtain ⟨after, he, h⟩ := exists_of_bind_eq_ok h
    cases h
    cases e with
    | start t =>
      cases he
      exact ⟨t :: tags, htags.inside .nil, rfl⟩
    | finish name =>
      cases tags with
      | nil => cases he
      | cons t tags =>
        rw [List.map_cons, openAfter] at he
        split at he
        · next hname =>
          cases he
          exact ⟨tags, hname ▸ htags.finish, rfl⟩
        · cases he
    | _ =>
      cases he
      exact ⟨tags, htags.append (.event nofun nofun), rfl⟩

theorem exists_foldlM_openAfter (opened : List (List Char)) (cs : List Char) :
    ∃ after, (readFrom opened cs).events.foldlM openAfter opened = .ok after := by
  fun_induction readFrom opened cs with
  | case1 opened => exact ⟨opened, rfl⟩
  | case2 opened => exact ⟨opened, rfl⟩
  | case3 opened => exact ⟨opened, rfl⟩
  | case4 opened c cs e rest hread opened' hopen ih =>
    obtain ⟨after, hafter⟩ := ih
    refine ⟨after, ?_⟩
    rw [Reading.push, List.foldlM_cons, hopen]
    exact hafter

/-- Each place in a document that is read is inside elements that are determined by what stands
before it. -/
theorem exists_leadsInto_take (cs : List Char) (i : ℕ) :
    ∃ tags, LeadsInto ((read cs).events.take i) tags := by
  obtain ⟨after, hafter⟩ := exists_foldlM_openAfter [] (Text.dropByteOrderMark cs)
  have hsplit := List.take_append_drop i (read cs).events
  rw [← read, ← hsplit, List.foldlM_append] at hafter
  obtain ⟨opened, hopened, -⟩ := exists_of_bind_eq_ok hafter
  obtain ⟨tags, htags, -⟩ := exists_leadsInto hopened
  exact ⟨tags, htags⟩

/-! ### Names -/

/-- The namespace of a label in tags, innermost first. The innermost tag that declares the label
counts, and two labels have a namespace wherever they stand. -/
def namespaceAt (tags : List Tag) (label : List Char) : Option (List Char) :=
  if label = xmlLabel then some xmlNamespace
  else if label = xmlnsLabel then some xmlnsNamespace
  else tags.findSome? (Tag.declared? label)

/-- A name is written for a local part in a namespace: with a label before the first colon, or as it
is where its namespace is the default one. No label is empty before a colon, as what declares the
empty label declares the default namespace. -/
inductive Means (tags : List Tag) : List Char → List Char → List Char → Prop
  | labelled {label ns name : List Char} (hlabel : label ≠ []) (hcolon : ':' ∉ label)
    (hns : namespaceAt tags label = some ns) : Means tags (label ++ ':' :: name) ns name
  | plain {ns name : List Char} (hcolon : ':' ∉ name) (hns : namespaceAt tags [] = some ns) :
    Means tags name ns name

/-- A written name is expanded: it does not begin with a brace, and neither its namespace nor its
local part is empty. -/
structure Expands (tags : List Tag) (written ns name : List Char) : Prop where
  brace : written.head? ≠ some '\x7b'
  means : Means tags written ns name
  ns_ne : ns ≠ []
  name_ne : name ≠ []

theorem Scope.lookup_eq_some_iff {scope : Scope} {label ns : List Char} :
    scope.lookup label = some ns ↔
      (scope.find? (·.label = label)).map Binding.uri = some ns ∧ ns ≠ [] := by
  unfold Scope.lookup
  cases scope.find? (·.label = label) with
  | none => simp
  | some binding => by_cases huri : binding.uri = [] <;> simp +contextual [huri, eq_comm]

section

variable {scopes : List Scope} {tags : List Tag} {label written ns name : List Char}

theorem Scoped.lookup_iff (h : Scoped scopes tags) :
    (scopes.headD []).lookup label = some ns ↔
      tags.findSome? (Tag.declared? label) = some ns ∧ ns ≠ [] := by
  rw [Scope.lookup_eq_some_iff, h.find?_declared]

theorem Scoped.namespaceOf_iff (h : Scoped scopes tags) :
    (scopes.headD []).namespaceOf label = some ns ↔
      label ≠ [] ∧ namespaceAt tags label = some ns ∧ ns ≠ [] := by
  have hxml : xmlNamespace ≠ [] := by decide
  have hxmlns : xmlnsNamespace ≠ [] := by decide
  unfold Scope.namespaceOf namespaceAt
  by_cases heq : label = xmlLabel
  · simp only [if_pos heq, Option.some.injEq]
    exact ⟨fun hns => ⟨by simp [heq, xmlLabel], hns, hns ▸ hxml⟩, fun hns => hns.2.1⟩
  by_cases heq' : label = xmlnsLabel
  · simp only [if_neg heq, if_pos heq', Option.some.injEq]
    exact ⟨fun hns => ⟨by simp [heq', xmlnsLabel], hns, hns ▸ hxmlns⟩, fun hns => hns.2.1⟩
  by_cases hempty : label = []
  · simp [hempty, xmlLabel, xmlnsLabel]
  · simp only [if_neg heq, if_neg heq', if_neg hempty, h.lookup_iff]
    simp [hempty]

theorem Scoped.resolve_iff (h : Scoped scopes tags) :
    (scopes.headD []).resolve written = some (ns, name) ↔ Means tags written ns name ∧ ns ≠ [] := by
  unfold Scope.resolve
  constructor
  · intro hresolve
    split at hresolve
    · rename_i label rest hcut
      obtain ⟨ns', hns, heq⟩ := Option.map_eq_some_iff.mp hresolve
      obtain ⟨rfl, rfl⟩ := Prod.mk.inj heq
      obtain ⟨hlabel, hns, hne⟩ := h.namespaceOf_iff.mp hns
      refine ⟨?_, hne⟩
      rw [eq_of_cutAt hcut, List.append_assoc]
      exact .labelled hlabel (notMem_of_cutAt hcut) hns
    · rename_i hcut
      obtain ⟨ns', hns, heq⟩ := Option.map_eq_some_iff.mp hresolve
      obtain ⟨rfl, rfl⟩ := Prod.mk.inj heq
      obtain ⟨hns, hne⟩ := h.lookup_iff.mp hns
      exact ⟨.plain (cutAt_eq_none_iff.mp hcut) hns, hne⟩
  · rintro ⟨hmeans, hne⟩
    cases hmeans with
    | labelled hlabel hcolon hns =>
      simp only [cutAt_of_notMem hcolon, h.namespaceOf_iff.mpr ⟨hlabel, hns, hne⟩, Option.map_some]
    | plain hcolon hns =>
      simp only [cutAt_eq_none_iff.mpr hcolon, h.lookup_iff.mpr ⟨hns, hne⟩, Option.map_some]

/-- A name is qualified with the namespace that it is expanded to. -/
theorem Scoped.qualify?_iff (h : Scoped scopes tags) {qualified : List Char} :
    (scopes.headD []).qualify? written = some qualified ↔
      ∃ ns name, Expands tags written ns name ∧ qualified = '\x7b' :: ns ++ '\x7d' :: name := by
  unfold Scope.qualify?
  constructor
  · intro hqualify
    split at hqualify
    · cases hqualify
    · rename_i hbrace
      split at hqualify
      · cases hqualify
      · rename_i ns name hname hresolve
        obtain ⟨hmeans, hne⟩ := h.resolve_iff.mp hresolve
        refine ⟨ns, name, ⟨?_, hmeans, hne, ?_⟩, (Option.some.inj hqualify).symm⟩
        · intro hhead
          obtain ⟨rest, rfl⟩ := List.head?_eq_some_iff.mp hhead
          exact hbrace rest rfl
        · rintro rfl
          exact hname rfl
      · cases hqualify
  · rintro ⟨ns, name, hexpands, rfl⟩
    have hresolve := h.resolve_iff.mpr ⟨hexpands.means, hexpands.ns_ne⟩
    split
    · exact absurd rfl hexpands.brace
    · rw [hresolve]
      obtain ⟨c, rest, rfl⟩ := List.exists_cons_of_ne_nil hexpands.name_ne
      rfl

end

/-! ### Documents -/

/-- The second attribute is what is written for the first one inside tags, innermost first. A name
has its value without references and without white space at its ends expanded, or it stays as it is
written if that is not expanded. -/
structure Attribute.Written (tags : List Tag) (a b : Attribute) : Prop where
  key : b.key = a.key
  other : a.key ∉ nameKeys → b.value = a.value
  name : a.key ∈ nameKeys → ∃ value, unescape a.value = some value ∧
    (∀ ns name, Expands tags (strip isSpace value) ns name →
      b.value = escape ('\x7b' :: ns ++ '\x7d' :: name)) ∧
    ((∀ ns name, ¬Expands tags (strip isSpace value) ns name) → b.value = a.value)

/-- The second tag is what is written for the first one inside elements with given start tags. -/
def Tag.Written (tags : List Tag) (t u : Tag) : Prop :=
  u.name = t.name ∧ ∃ as bs, readAttributes t.inside = .ok as ∧
    u.inside = bs.flatMap Attribute.render ∧
    List.Forall₂ (Attribute.Written (t :: tags)) as bs

theorem Scoped.written_of_qualifyAttribute {scopes : List Scope} {tags : List Tag}
    (h : Scoped scopes tags) {a b : Attribute}
    (hb : qualifyAttribute (scopes.headD []) a = .ok b) : a.Written tags b := by
  unfold qualifyAttribute at hb
  split at hb
  case isFalse hkey =>
    cases hb
    exact ⟨rfl, fun _ => rfl, fun hmem => absurd hmem hkey⟩
  case isTrue hkey =>
  split at hb
  case h_1 => cases hb
  case h_2 value hvalue =>
  split at hb
  case h_1 qualified hqualified =>
    cases hb
    refine ⟨rfl, fun hother => absurd hkey hother, fun _ => ⟨value, hvalue, ?_, fun hnone => ?_⟩⟩
    · intro ns name hexpands
      have hsame := h.qualify?_iff.mpr ⟨ns, name, hexpands, rfl⟩
      rw [hqualified] at hsame
      exact congrArg escape (Option.some.inj hsame)
    · obtain ⟨ns, name, hexpands, -⟩ := h.qualify?_iff.mp hqualified
      exact absurd hexpands (hnone ns name)
  case h_2 hqualified =>
    cases hb
    refine ⟨rfl, fun _ => rfl, fun _ => ⟨value, hvalue, fun ns name hexpands => ?_, fun _ => rfl⟩⟩
    have hsome := h.qualify?_iff.mpr ⟨ns, name, hexpands, rfl⟩
    rw [hqualified] at hsome
    cases hsome

theorem Scoped.written_of_qualifyTag {scopes : List Scope} {tags : List Tag}
    (h : Scoped scopes tags) {t u : Tag} {inner : Scope}
    (hu : qualifyTag (scopes.headD []) t = .ok (u, inner)) : t.Written tags u := by
  obtain ⟨has, -, bs, hbs, rfl⟩ := eq_of_qualifyTag hu
  exact ⟨rfl, t.attributes, bs, has, rfl,
    hbs.imp fun a b hb => (h.cons hu).written_of_qualifyAttribute hb⟩

theorem read_of_all {cs : List Char} {es : List Event} (h : (read cs).all = .ok es) :
    read cs = ⟨es, none⟩ := by
  unfold Reading.all at h
  split at h
  · cases h
  · next hend =>
    cases h
    rw [← hend]

/-- A document that is qualified has its events written again, each tag with its attributes in the
scope of the tag itself and of the elements around it. These are the elements that what stands
before the tag leads into, so neither elements that are closed by then nor anything after the tag
count. All attributes of a tag count, those after a name included. -/
theorem qualified_names {cs out : List Char} (h : qualify cs = .ok out) :
    ∃ es fs : List Event, read cs = ⟨es, none⟩ ∧ out = fs.flatMap Event.render ∧
      fs.length = es.length ∧ ∀ i e f, es[i]? = some e → fs[i]? = some f →
        ∃ tags, LeadsInto (es.take i) tags ∧ (∀ tags', LeadsInto (es.take i) tags' → tags' = tags) ∧
          e.Alike (Tag.Written tags) f := by
  obtain ⟨es, hes, h⟩ := exists_of_bind_eq_ok h
  obtain ⟨fs, hfs, h⟩ := exists_of_bind_eq_ok h
  cases h
  have hread := read_of_all hes
  have halike := forall₂_of_qualifyEvents hfs
  refine ⟨es, fs, hread, rfl, halike.length_eq.symm, fun i e f he hf => ?_⟩
  obtain ⟨tags, htags⟩ := exists_leadsInto_take cs i
  rw [hread] at htags
  refine ⟨tags, htags, fun tags' => htags.unique, ?_⟩
  have hwritten : ∀ t, e.tag? = some t → ∃ u, f.tag? = some u ∧ t.Written tags u := by
    intro t ht
    obtain ⟨scopes, u, inner, f', hscoped, hu, hf', htag⟩ := exists_qualifyTag hfs .nil he ht
    obtain rfl := Option.some.inj (hf.symm.trans hf')
    have hopen : (es.take i).foldl Event.opens [] = tags := htags.openTags_eq
    exact ⟨u, htag, (hopen ▸ hscoped).written_of_qualifyTag hu⟩
  have hzip : (e, f) ∈ es.zip fs :=
    List.mem_of_getElem? (List.getElem?_zip_eq_some.mpr ⟨he, hf⟩)
  cases List.forall₂_zip halike hzip with
  | same he => exact .same he
  | start _ =>
    obtain ⟨u, hu, hwritten⟩ := hwritten _ rfl
    exact .start (Option.some.inj hu ▸ hwritten)
  | empty _ =>
    obtain ⟨u, hu, hwritten⟩ := hwritten _ rfl
    exact .empty (Option.some.inj hu ▸ hwritten)

/-- The start tag of an order. -/
def orderTag : Tag := ⟨"order".toList, " xmlns:p=\"a\" xmlns=\"d\"".toList⟩

/-- A row of an order, which declares the label of its second name and takes back the default
namespace of its third one. -/
def rowTag : Tag := ⟨"row".toList,
  " type=\" p:int\" ref=\"q:row\" base=\"row\" xmlns:q=\"q\" xmlns=\"\"".toList⟩

/-- An order whose row stands behind two elements that declare its first label in another way. -/
def orderText : List Char :=
  (Event.start orderTag).render ++
    "<gift xmlns:p=\"b\"/><note xmlns:p=\"c\"></note>".toList ++
    (Event.empty rowTag).render ++ "</order>".toList

def qualifiedOrderText : List Char :=
  ("<order xmlns:p=\"a\" xmlns=\"d\"><gift xmlns:p=\"b\"/><note xmlns:p=\"c\">" ++
    "</note><row type=\"\x7ba\x7dint\" ref=\"\x7bq\x7drow\" base=\"row\"" ++
    " xmlns:q=\"q\" xmlns=\"\"/></order>").toList

/-- The row is inside the order only, whose label its first name has. The label of its second name is
declared behind that name. -/
theorem qualified_names_order : qualify orderText = .ok qualifiedOrderText ∧
    Expands [rowTag, orderTag] (['p'] ++ ':' :: "int".toList) "a".toList "int".toList ∧
    Expands [rowTag, orderTag] (['q'] ++ ':' :: "row".toList) "q".toList "row".toList ∧
    ∃ (fs : List Event) (f : Event), qualifiedOrderText = fs.flatMap Event.render ∧
      fs[4]? = some f ∧ (Event.empty rowTag).Alike (Tag.Written [orderTag]) f := by
  have hqualify : qualify orderText = .ok qualifiedOrderText := by decide +kernel
  have hrow : (read orderText).events[4]? = some (.empty rowTag) := by decide +kernel
  have hopen : openTags ((read orderText).events.take 4) = [orderTag] := by decide +kernel
  have hfirst : Means [rowTag, orderTag] (['p'] ++ ':' :: "int".toList) "a".toList "int".toList :=
    .labelled (by decide) (by decide) (by decide +kernel)
  have hsecond : Means [rowTag, orderTag] (['q'] ++ ':' :: "row".toList) "q".toList "row".toList :=
    .labelled (by decide) (by decide) (by decide +kernel)
  obtain ⟨es, fs, hread, hout, hlength, hwritten⟩ := qualified_names hqualify
  rw [hread] at hrow hopen
  obtain ⟨hlt, -⟩ := List.getElem?_eq_some_iff.mp hrow
  have hf : fs[4]? = some fs[4] := List.getElem?_eq_getElem (hlength ▸ hlt)
  obtain ⟨tags, htags, -, halike⟩ := hwritten 4 _ _ hrow hf
  obtain rfl := htags.openTags_eq.symm.trans hopen
  exact ⟨hqualify, ⟨by decide, hfirst, by decide, by decide⟩,
    ⟨by decide, hsecond, by decide, by decide⟩, fs, _, hout, hf, halike⟩

end SchemaShapes.Xml
