import SchemaShapes.Proofs.Traversal
import SchemaShapes.Proofs.Xml.Event
import SchemaShapes.Proofs.Xml.Reference
import SchemaShapes.Xml.Qualified

/-! What a qualified document says. Tags are taken apart and written anew, with double quotes
around values that are copied as they stand. Where no value holds a double quote, reading the new
text gives the old events with nothing changed but names. -/
namespace SchemaShapes.Xml

open Text (cutAt dropByteOrderMark eq_of_cutAt isBlank isSpace strip)

/-! ### What is kept -/

/-- The second attribute has the key of the first and its value, as that is written, or, if the key
is that of names, a local part of the value with a namespace in braces. -/
def Attribute.Kept (a b : Attribute) : Prop :=
  b.key = a.key ∧ (b.value = a.value ∨
    a.key ∈ nameKeys ∧ ∃ value uri name, unescape a.value = some value ∧
      name <:+ strip isSpace value ∧ unescape b.value = some ('\x7b' :: uri ++ '\x7d' :: name))

/-- The second tag has the name of the first and its attributes one by one. -/
def Tag.Kept (t u : Tag) : Prop :=
  u.name = t.name ∧ ∃ as bs, readAttributes t.inside = .ok as ∧ readAttributes u.inside = .ok bs ∧
    List.Forall₂ Attribute.Kept as bs

/-- Events that are the same or tags of one kind that are related. -/
inductive Event.Alike (R : Tag → Tag → Prop) : Event → Event → Prop
  | start {t u : Tag} (h : R t u) : Alike R (.start t) (.start u)
  | empty {t u : Tag} (h : R t u) : Alike R (.empty t) (.empty u)
  | same {e : Event} (he : ∀ t, e ≠ .start t ∧ e ≠ .empty t) : Alike R e e

/-- A tag that can be copied. What well-formed documents may lack of this is the last part only:
values between single quotes may hold double quotes. -/
structure Tag.Plain (t : Tag) : Prop where
  name_ne : t.name ≠ []
  name_quoteFree : QuoteFree t.name
  name_getLast : t.name.getLast? ≠ some '/'
  attributes : ∀ as, readAttributes t.inside = .ok as →
    ∀ a ∈ as, QuoteFree a.key ∧ '"' ∉ a.value

instance (t : Tag) : Decidable t.Plain :=
  have : Decidable (∀ as, readAttributes t.inside = .ok as →
      ∀ a ∈ as, QuoteFree a.key ∧ '"' ∉ a.value) :=
    match readAttributes t.inside with
    | .ok as => decidable_of_iff (∀ a ∈ as, QuoteFree a.key ∧ '"' ∉ a.value) (by simp)
    | .error _ => isTrue nofun
  decidable_of_iff (_ ∧ _ ∧ _ ∧ _)
    ⟨fun ⟨hne, hfree, hlast, has⟩ => ⟨hne, hfree, hlast, has⟩,
      fun ⟨hne, hfree, hlast, has⟩ => ⟨hne, hfree, hlast, has⟩⟩

/-- An event is plain if it is no tag or a plain one. -/
def Event.Plain : Event → Prop
  | .start t | .empty t => t.Plain
  | _ => True

instance : DecidablePred Event.Plain
  | .start t | .empty t => inferInstanceAs (Decidable t.Plain)
  | .text _ | .reference _ | .finish _ | .comment _ | .cdata _ | .instruction _ | .doctype _ =>
    inferInstanceAs (Decidable True)

/-! ### Attributes -/

theorem Scope.suffix_of_resolve {scope : Scope} {written uri name : List Char}
    (h : scope.resolve written = some (uri, name)) : name <:+ written := by
  unfold Scope.resolve at h
  split at h
  · rename_i label rest hcut
    obtain ⟨namespc, -, heq⟩ := Option.map_eq_some_iff.mp h
    obtain ⟨-, rfl⟩ := Prod.mk.inj heq
    rw [eq_of_cutAt hcut]
    exact List.suffix_append _ _
  · obtain ⟨namespc, -, heq⟩ := Option.map_eq_some_iff.mp h
    obtain ⟨-, rfl⟩ := Prod.mk.inj heq
    exact List.suffix_rfl

theorem Scope.eq_of_qualify? {scope : Scope} {written qualified : List Char}
    (h : scope.qualify? written = some qualified) :
    ∃ uri name, name <:+ written ∧ qualified = '\x7b' :: uri ++ '\x7d' :: name := by
  unfold Scope.qualify? at h
  split at h
  · cases h
  · split at h
    · cases h
    · rename_i uri name _ hresolve
      cases h
      exact ⟨uri, name, scope.suffix_of_resolve hresolve, rfl⟩
    · cases h

theorem qualifyAttribute_kept {scope : Scope} {a b : Attribute}
    (h : qualifyAttribute scope a = .ok b) :
    a.Kept b ∧ ('"' ∉ a.value → '"' ∉ b.value) := by
  have hsame : a.Kept a ∧ ('"' ∉ a.value → '"' ∉ a.value) := ⟨⟨rfl, .inl rfl⟩, id⟩
  unfold qualifyAttribute at h
  split at h
  case isFalse =>
    cases h
    exact hsame
  case isTrue hkey =>
  split at h
  case h_1 => cases h
  case h_2 value hvalue =>
  split at h
  case h_2 =>
    cases h
    exact hsame
  case h_1 qualified hqualified =>
  cases h
  obtain ⟨uri, name, hname, rfl⟩ := Scope.eq_of_qualify? hqualified
  exact ⟨⟨rfl, .inr ⟨hkey, value, uri, name, hvalue, hname, unescape_escape _⟩⟩,
    fun _ => quote_notMem_escape _⟩

theorem map_key_of_kept {as bs : List Attribute} (h : List.Forall₂ Attribute.Kept as bs) :
    bs.map Attribute.key = as.map Attribute.key := by
  induction h with
  | nil => rfl
  | cons hab _ ih => rw [List.map_cons, List.map_cons, hab.1, ih]

/-! ### Tags -/

/-- The second tag is what qualifying in some scope makes of the first. -/
def Tag.Qualifies (t u : Tag) : Prop := ∃ scope inner, qualifyTag scope t = .ok (u, inner)

theorem Tag.Qualifies.attributes {t u : Tag} (h : t.Qualifies u) :
    ∃ as bs, readAttributes t.inside = .ok as ∧ u = ⟨t.name, bs.flatMap Attribute.render⟩ ∧
      List.Forall₂ (fun a b => a.Kept b ∧ ('"' ∉ a.value → '"' ∉ b.value)) as bs := by
  obtain ⟨scope, inner, h⟩ := h
  obtain ⟨as, has, h⟩ := exists_of_bind_eq_ok h
  obtain ⟨inner', -, h⟩ := exists_of_bind_eq_ok h
  obtain ⟨bs, hbs, h⟩ := exists_of_bind_eq_ok h
  cases h
  exact ⟨as, bs, has, rfl, (forall₂_of_mapM hbs).imp fun a b => qualifyAttribute_kept⟩

theorem readAttributes_eq_ok_iff {cs : List Char} {as : List Attribute} :
    readAttributes cs = .ok as ↔ Spelling as cs ∧ (as.map Attribute.key).Nodup := by
  rw [← readAttributeList_eq_some_iff, readAttributes]
  cases readAttributeList cs with
  | none => simp
  | some as' =>
    by_cases hnodup : (as'.map Attribute.key).Nodup
    · simp only [if_pos hnodup, Except.ok.injEq, Option.some.injEq]
      exact ⟨fun h => ⟨h, h ▸ hnodup⟩, And.left⟩
    · simp only [if_neg hnodup, Option.some.injEq, reduceCtorEq, false_iff]
      rintro ⟨rfl, h⟩
      exact hnodup h

/-- A copy of a plain tag has the attributes of the tag, and it is again one that can be read. -/
theorem Tag.Plain.copy {t u : Tag} (ht : t.Plain) (h : t.Qualifies u) :
    t.Kept u ∧ (t.Sound → u.Sound) := by
  obtain ⟨as, bs, has, rfl, hall⟩ := h.attributes
  obtain ⟨hspelling, hnodup⟩ := readAttributes_eq_ok_iff.mp has
  have hplain := ht.attributes as has
  have hkept : List.Forall₂ Attribute.Kept as bs := hall.imp fun _ _ h => h.1
  have hkey {P : List Char → Prop} (h : ∀ a ∈ as, P a.key) : ∀ b ∈ bs, P b.key :=
    forall_of_forall₂ hkept (fun a b hab ha => hab.1 ▸ ha) h
  have hvalue : ∀ b ∈ bs, '"' ∉ b.value :=
    forall_of_forall₂ hall (fun a b hab => hab.2) fun a ha => (hplain a ha).2
  have hwritten : Spelling bs (bs.flatMap Attribute.render) :=
    spelling_render fun b hb => ⟨hkey hspelling.keys b hb, hvalue b hb⟩
  refine ⟨⟨rfl, as, bs, has, readAttributes_eq_ok_iff.mpr ⟨hwritten, ?_⟩, hkept⟩, fun hsound => ?_⟩
  · rwa [map_key_of_kept hkept]
  -- The old tag was not cut in its name or in a key, so the new one is not either.
  have hclosed := hsound.closed
  rw [quoteAfter_of_quoteFree ht.name_quoteFree] at hclosed
  have hname : '>' ∉ t.name := fun hmem => by simp [hmem] at hclosed
  rw [if_neg hname, hspelling.quoteAfter fun a ha => (hplain a ha).1] at hclosed
  refine ⟨hsound.name, hsound.opens, ?_⟩
  rw [quoteAfter_of_quoteFree ht.name_quoteFree, if_neg hname,
    hwritten.quoteAfter (hkey fun a ha => (hplain a ha).1)]
  exact hkey (P := ('>' ∉ ·)) hclosed

theorem head_of_render (as : List Attribute) :
    ∀ c ∈ (as.flatMap Attribute.render).head?, isBlank c := by
  cases as with
  | nil => simp
  | cons a as => simp [Attribute.render, isBlank]

theorem getLast_of_render {name : List Char} (hname : name.getLast? ≠ some '/')
    (as : List Attribute) : (name ++ as.flatMap Attribute.render).getLast? ≠ some '/' := by
  rcases List.eq_nil_or_concat as with rfl | ⟨as, a, rfl⟩
  · simpa using hname
  · have hend : name ++ (as.concat a).flatMap Attribute.render =
        name ++ as.flatMap Attribute.render ++ ' ' :: a.key ++ ['=', '"'] ++ a.value ++ ['"'] := by
      simp [Attribute.render]
    rw [hend, List.getLast?_concat]
    decide

/-! ### Documents -/

theorem forall₂_of_qualifyEvents {scopes : List Scope} {es fs : List Event}
    (h : qualifyEvents scopes es = .ok fs) :
    List.Forall₂ (Event.Alike Tag.Qualifies) es fs := by
  fun_induction qualifyEvents scopes es generalizing fs with
  | case1 =>
    cases h
    exact .nil
  | case2 scopes tag rest ih =>
    obtain ⟨⟨u, inner⟩, hu, h⟩ := exists_of_bind_eq_ok h
    obtain ⟨fs, hfs, h⟩ := exists_of_bind_eq_ok h
    cases h
    exact .cons (.start ⟨_, _, hu⟩) (ih _ hfs)
  | case3 scopes tag rest ih =>
    obtain ⟨⟨u, inner⟩, hu, h⟩ := exists_of_bind_eq_ok h
    obtain ⟨fs, hfs, h⟩ := exists_of_bind_eq_ok h
    cases h
    exact .cons (.empty ⟨_, _, hu⟩) (ih hfs)
  | case4 scopes name rest ih =>
    obtain ⟨fs, hfs, h⟩ := exists_of_bind_eq_ok h
    cases h
    exact .cons (.same fun t => ⟨nofun, nofun⟩) (ih hfs)
  | case5 scopes e rest hstart hempty _ ih =>
    obtain ⟨fs, hfs, h⟩ := exists_of_bind_eq_ok h
    cases h
    exact .cons (.same fun t => ⟨hstart t, hempty t⟩) (ih hfs)

theorem readFrom_cons {opened opened' : List (List Char)} {c : Char} {cs rest : List Char}
    {e : Event} (hread : readEvent c cs = .ok (e, rest)) (hopen : openAfter opened e = .ok opened') :
    readFrom opened (c :: cs) = (readFrom opened' rest).push e := by
  rw [readFrom]
  split
  · rename_i h
    rw [hread] at h
    cases h
  · rename_i h
    rw [hread] at h
    cases h
    rw [hopen]

theorem readBack_of_alike {c : Char} {cs rest ds : List Char} {e f : Event}
    (h : readEvent c cs = .ok (e, rest)) (hplain : e.Plain) (hf : e.Alike Tag.Qualifies f)
    (hds : ds.head? = rest.head?) : f.ReadBack c ds := by
  cases hf with
  | same he => exact readBack_of_readEvent h he hds
  | @start t u hu =>
    obtain ⟨-, rfl, -⟩ := inside_of_readEvent h (.inl rfl)
    have hsound := (hplain.copy hu).2 (Tag.sound_of_readEvent h (.inl rfl))
    obtain ⟨as, bs, -, rfl, -⟩ := hu.attributes
    exact hsound.readBack_start hplain.name_ne (head_of_render bs)
      (getLast_of_render hplain.name_getLast bs) ds
  | @empty t u hu =>
    obtain ⟨-, rfl, -⟩ := inside_of_readEvent h (.inr rfl)
    have hsound := (hplain.copy hu).2 (Tag.sound_of_readEvent h (.inr rfl))
    obtain ⟨as, bs, -, rfl, -⟩ := hu.attributes
    exact hsound.readBack_empty hplain.name_ne (head_of_render bs) ds

theorem openAfter_of_alike {opened : List (List Char)} {e f : Event}
    (h : e.Alike Tag.Qualifies f) : openAfter opened f = openAfter opened e := by
  cases h with
  | same => rfl
  | start hu =>
    obtain ⟨as, bs, -, rfl, -⟩ := hu.attributes
    rfl
  | empty => rfl

/-- Reading what is written for qualified events gives those events. That a run of text ends where
it did is seen from the character that comes next, which is the one that came next before. -/
theorem readFrom_render {opened : List (List Char)} {cs : List Char} {fs : List Event}
    (hend : (readFrom opened cs).failure = none) (hplain : ∀ e ∈ (readFrom opened cs).events, e.Plain)
    (h : List.Forall₂ (Event.Alike Tag.Qualifies) (readFrom opened cs).events fs) :
    (fs.flatMap Event.render).head? = cs.head? ∧
      readFrom opened (fs.flatMap Event.render) = ⟨fs, none⟩ := by
  fun_induction readFrom opened cs generalizing fs with
  | case1 opened =>
    cases h
    exact ⟨rfl, by rw [List.flatMap_nil, readFrom]⟩
  | case2 => cases hend
  | case3 => cases hend
  | case4 opened c cs e rest hread opened' hopen ih =>
    cases h with
    | @cons _ f _ fs hef hfs =>
    obtain ⟨he, hplain⟩ := List.forall_mem_cons.mp hplain
    obtain ⟨hhead, hrest⟩ := ih hend hplain hfs
    obtain ⟨ds, hds, hagain⟩ := readBack_of_alike hread he hef hhead
    rw [List.flatMap_cons, hds]
    refine ⟨rfl, ?_⟩
    rw [readFrom_cons hagain ((openAfter_of_alike hef).trans hopen), hrest]
    rfl

theorem kept_of_alike {e f : Event} (he : e.Plain) (h : e.Alike Tag.Qualifies f) :
    e.Alike Tag.Kept f := by
  cases h with
  | same he => exact .same he
  | start hu => exact .start (he.copy hu).1
  | empty hu => exact .empty (he.copy hu).1

theorem dropByteOrderMark_eq_self {cs : List Char} (h : cs.head? ≠ some '\uFEFF') :
    dropByteOrderMark cs = cs := by
  unfold dropByteOrderMark
  split
  · exact absurd rfl h
  · rfl

/-- A qualified document can be read again, and reading it gives the events of the old one: the same
tags with the same attributes but for names, and everything else as it was. Tags have to be plain
for that, since a double quote in a value ends the value once it stands between double quotes. Of
two byte order marks at the start, the second one would be left out of the new text. -/
theorem qualified_reads_alike {cs out : List Char} (h : qualify cs = .ok out)
    (hplain : ∀ e ∈ (read cs).events, e.Plain)
    (hmark : (dropByteOrderMark cs).head? ≠ some '\uFEFF') :
    ∃ events, read out = ⟨events, none⟩ ∧
      List.Forall₂ (Event.Alike Tag.Kept) (read cs).events events := by
  obtain ⟨es, hes, h⟩ := exists_of_bind_eq_ok h
  obtain ⟨fs, hfs, h⟩ := exists_of_bind_eq_ok h
  cases h
  obtain ⟨hend, rfl⟩ : (read cs).failure = none ∧ (read cs).events = es := by
    unfold Reading.all at hes
    split at hes
    · cases hes
    · rename_i hend
      exact ⟨hend, Except.ok.inj hes⟩
  have halike := forall₂_of_qualifyEvents hfs
  obtain ⟨hhead, hread⟩ := readFrom_render hend hplain halike
  refine ⟨fs, ?_, ?_⟩
  · rw [read, dropByteOrderMark_eq_self (hhead ▸ hmark), hread]
  · exact ((List.forall₂_and_left _ _).mpr ⟨hplain, halike⟩).imp
      fun e f hef => kept_of_alike hef.1 hef.2

/-- Two tags, with both kinds of quotes and a name to qualify. -/
def priceList : List Char :=
  "<list xmlns:p = 'urn:p'>\n<row note='&lt; 5' type=\"p:int\"/></list >".toList

/-- The price list with its name qualified. -/
def qualifiedPriceList : List Char :=
  "<list xmlns:p=\"urn:p\">\n<row note=\"&lt; 5\" type=\"\x7burn:p\x7dint\"/></list>".toList

theorem priceList_reads_alike : qualify priceList = .ok qualifiedPriceList ∧
    ∃ events, read qualifiedPriceList = ⟨events, none⟩ ∧
      List.Forall₂ (Event.Alike Tag.Kept) (read priceList).events events := by
  have hqualify : qualify priceList = .ok qualifiedPriceList := by decide +kernel
  exact ⟨hqualify, qualified_reads_alike hqualify (by decide +kernel) (by decide +kernel)⟩

/-- A value that holds a double quote is copied between double quotes, so the document that can be
read becomes one that cannot. -/
theorem quoted_value_unreadable :
    (read "<enumeration value='5\"'/>".toList).failure = none ∧
    qualify "<enumeration value='5\"'/>".toList = .ok "<enumeration value=\"5\"\"/>".toList ∧
    (read "<enumeration value=\"5\"\"/>".toList).failure = some .unclosed := by
  decide +kernel

end SchemaShapes.Xml
