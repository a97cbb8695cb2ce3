import SchemaShapes.Proofs.Xml.Scope
import SchemaShapes.Xml.Node

/-! The root of a document. It has the first tag of all; what comes before it is written again as it
was read, and so the root of a qualified document has what qualifying makes of that tag. Only the
first tag has to be plain for this. -/
namespace SchemaShapes.Xml

open Text (dropByteOrderMark)

/-- The first tag among events. -/
def firstTag? (es : List Event) : Option Tag := es.findSome? Event.tag?

theorem firstTag?_cons_of_none {e : Event} (h : e.tag? = none) (es : List Event) :
    firstTag? (e :: es) = firstTag? es := by
  rw [firstTag?, List.findSome?_cons, h]
  rfl

theorem firstTag?_cons_of_some {e : Event} {t : Tag} (h : e.tag? = some t) (es : List Event) :
    firstTag? (e :: es) = some t := by
  rw [firstTag?, List.findSome?_cons, h]

/-! ### The first tag of a qualified document -/

/-- What is written for events begins as the text that they are read from. -/
theorem head?_render {opened : List (List Char)} {cs : List Char} {fs : List Event}
    (hend : (readFrom opened cs).failure = none)
    (h : List.Forall₂ (Event.Alike Tag.Qualifies) (readFrom opened cs).events fs) :
    (fs.flatMap Event.render).head? = cs.head? := by
  fun_induction readFrom opened cs generalizing fs with
  | case1 =>
    cases h
    rfl
  | case2 => cases hend
  | case3 => cases hend
  | case4 opened c cs e rest hread opened' hopen ih =>
    cases h with
    | @cons _ f _ fs hef hfs =>
    have hhead := ih hend hfs
    rw [List.flatMap_cons]
    cases hef with
    | same he =>
      obtain ⟨ds, hds, -⟩ := readBack_of_readEvent hread he hhead
      rw [hds]
      rfl
    | start =>
      obtain ⟨-, rfl, -⟩ := inside_of_readEvent hread (.inl rfl)
      rfl
    | empty =>
      obtain ⟨-, rfl, -⟩ := inside_of_readEvent hread (.inr rfl)
      rfl

theorem Event.Alike.tag? {R : Tag → Tag → Prop} {e f : Event} (h : e.Alike R f) :
    (e.tag? = none ∧ f = e) ∨ ∃ t u, e.tag? = some t ∧ f.tag? = some u ∧ R t u := by
  cases h with
  | start h => exact .inr ⟨_, _, rfl, rfl, h⟩
  | empty h => exact .inr ⟨_, _, rfl, rfl, h⟩
  | same he =>
    refine .inl ⟨?_, rfl⟩
    cases e with
    | start t => exact absurd rfl (he t).1
    | empty t => exact absurd rfl (he t).2
    | _ => rfl

theorem Event.plain_of_tag? {e : Event} (h : ∀ t ∈ e.tag?, t.Plain) : e.Plain := by
  cases e with
  | start t => exact h t rfl
  | empty t => exact h t rfl
  | _ => trivial

/-- The first tag of what is written for qualified events is the qualified first tag. -/
theorem firstTag?_render {opened : List (List Char)} {cs : List Char} {fs : List Event} {t : Tag}
    (hend : (readFrom opened cs).failure = none)
    (h : List.Forall₂ (Event.Alike Tag.Qualifies) (readFrom opened cs).events fs)
    (ht : firstTag? (readFrom opened cs).events = some t) (hplain : t.Plain) :
    ∃ u, t.Qualifies u ∧ firstTag? fs = some u ∧
      firstTag? (readFrom opened (fs.flatMap Event.render)).events = some u := by
  fun_induction readFrom opened cs generalizing fs with
  | case1 => cases ht
  | case2 => cases hend
  | case3 => cases hend
  | case4 opened c cs e rest hread opened' hopen ih =>
    cases h with
    | @cons _ f _ fs hef hfs =>
    have he : e.Plain := by
      refine Event.plain_of_tag? fun t' ht' => ?_
      obtain rfl : t' = t := Option.some.inj ((firstTag?_cons_of_some ht' _).symm.trans ht)
      exact hplain
    obtain ⟨ds, hds, hagain⟩ := readBack_of_alike hread he hef (head?_render hend hfs)
    have hread' := readFrom_cons hagain ((openAfter_of_alike hef).trans hopen)
    rw [List.flatMap_cons, hds, hread']
    rcases hef.tag? with ⟨hnone, rfl⟩ | ⟨t', u, ht', hu, hqualifies⟩
    · have ht : firstTag? (readFrom opened' rest).events = some t :=
        (firstTag?_cons_of_none hnone _).symm.trans ht
      obtain ⟨u, hqualifies, hu, hu'⟩ := ih hend hfs ht
      exact ⟨u, hqualifies, (firstTag?_cons_of_none hnone _).trans hu,
        (firstTag?_cons_of_none hnone _).trans hu'⟩
    · obtain rfl : t' = t := Option.some.inj ((firstTag?_cons_of_some ht' _).symm.trans ht)
      exact ⟨u, hqualifies, firstTag?_cons_of_some hu _, firstTag?_cons_of_some hu _⟩

/-- A run of text has no tag, so it does not matter to the first tag how much of it is there. -/
theorem firstTag?_dropWhile (opened : List (List Char)) (cs : List Char) :
    firstTag? (readFrom opened (cs.dropWhile inText)).events =
      firstTag? (readFrom opened cs).events := by
  cases cs with
  | nil => rfl
  | cons c cs =>
    by_cases hc : inText c
    · have hread : readEvent c cs = .ok (.text (c :: cs.takeWhile inText), cs.dropWhile inText) := by
        have hlt : c ≠ '<' := by rintro rfl; cases hc
        have hamp : c ≠ '&' := by rintro rfl; cases hc
        rw [readEvent, if_neg hlt, if_neg hamp]
      rw [List.dropWhile_cons_of_pos hc, readFrom_cons hread rfl]
      rfl
    · rw [List.dropWhile_cons_of_neg hc]

/-- A byte order mark makes no difference to the first tag either. -/
theorem firstTag?_read (cs : List Char) :
    firstTag? (read cs).events = firstTag? (readFrom [] cs).events := by
  unfold read dropByteOrderMark
  split
  · rename_i rest
    rw [← firstTag?_dropWhile [] ('\uFEFF' :: rest), ← firstTag?_dropWhile [] rest,
      List.dropWhile_cons_of_pos rfl]
  · rfl

/-- The first tag of a qualified document, when it is read again, is what qualifying makes of the
first tag of the document. -/
theorem firstTag?_qualify {cs out : List Char} {t : Tag} (h : qualify cs = .ok out)
    (ht : firstTag? (read cs).events = some t) (hplain : t.Plain) :
    ∃ u, t.Qualifies u ∧ firstTag? (read out).events = some u := by
  obtain ⟨es, hes, h⟩ := exists_of_bind_eq_ok h
  obtain ⟨fs, hfs, h⟩ := exists_of_bind_eq_ok h
  cases h
  unfold Reading.all at hes
  split at hes
  · cases hes
  · rename_i hend
    cases hes
    obtain ⟨u, hu, -, hagain⟩ := firstTag?_render hend (forall₂_of_qualifyEvents hfs) ht hplain
    exact ⟨u, hu, (firstTag?_read _).trans hagain⟩

/-! ### The root -/

theorem map_tag_getLast?_add (o : OpenElement) (outer : List OpenElement) (n : Node) :
    (o.add n :: outer).getLast?.map OpenElement.tag = (o :: outer).getLast?.map OpenElement.tag := by
  cases outer with
  | nil => rfl
  | cons p outer => rw [List.getLast?_cons_cons, List.getLast?_cons_cons]

/-- The outermost open element becomes an element with its tag, whatever is put into it. -/
theorem exists_element_of_rootFrom {opened : List OpenElement} {es : List Event} {n : Node}
    {t : Tag} (h : rootFrom opened es = some n)
    (ht : opened.getLast?.map OpenElement.tag = some t) : ∃ children, n = .element t children := by
  fun_induction rootFrom opened es with
  | case1 => cases h
  | case2 | case3 | case4 | case5 | case6 | case7 => cases ht
  | case8 o outer tag rest ih => exact ih h (by rwa [List.getLast?_cons_cons])
  | case9 o outer tag rest ih => exact ih h (by rwa [map_tag_getLast?_add])
  | case10 o =>
    cases h
    cases ht
    exact ⟨_, rfl⟩
  | case11 o p outer name rest ih =>
    rw [List.getLast?_cons_cons] at ht
    exact ih h (by rwa [map_tag_getLast?_add])
  | case12 o outer e rest _ _ _ _ n hn ih => exact ih h (by rwa [map_tag_getLast?_add])
  | case13 o outer e rest _ _ _ _ hnone ih => exact ih h ht

/-- The first element of a document has the first tag. -/
theorem exists_element_of_readRoot {cs : List Char} {n : Node} (h : readRoot cs = some n) :
    ∃ t children, n = .element t children ∧ firstTag? (read cs).events = some t := by
  have hroot : ∀ es, rootFrom [] es = some n →
      ∃ t children, n = .element t children ∧ firstTag? es = some t := by
    intro es h
    induction es with
    | nil => cases h
    | cons e rest ih =>
      cases e with
      | start t =>
        have h : rootFrom [⟨t, []⟩] rest = some n := h
        obtain ⟨children, rfl⟩ := exists_element_of_rootFrom h rfl
        exact ⟨t, children, rfl, rfl⟩
      | empty t =>
        cases h
        exact ⟨t, [], rfl, rfl⟩
      | finish => cases h
      | text | reference | cdata =>
        simp only [rootFrom, Event.text?] at h
        split at h
        · exact ih h
        · cases h
      | comment | instruction | doctype => exact ih h
  exact hroot _ h

end SchemaShapes.Xml
