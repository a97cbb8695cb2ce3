import Mathlib.Data.List.DropRight
import SchemaShapes.Proofs.Xml.Attribute

/-! Events read back. Writing an event and reading what is written gives the event again, in front
of any text that goes on as the old one did. -/
namespace SchemaShapes.Xml

open Text (cutAt cutAt_append dropWhile_append_cons eq_of_cutAt isBlank map_cons_eq_some_iff
  stripEnd takeWhile_append_cons)

/-- What is written for an event begins with a given character and is, in front of a given text,
the first event again. -/
def Event.ReadBack (e : Event) (c : Char) (rest : List Char) : Prop :=
  ∃ cs, e.render ++ rest = c :: cs ∧ readEvent c cs = .ok (e, rest)

section Doctype

theorem cutDoctype_append {depth : Nat} {cs inside rest : List Char}
    (h : cutDoctype depth cs = some (inside, rest)) (ds : List Char) :
    cutDoctype depth (inside ++ '>' :: ds) = some (inside, ds) := by
  induction cs generalizing depth inside with
  | nil => simp [cutDoctype] at h
  | cons c cs ih =>
    by_cases hc : c = '>'
    · subst hc
      cases depth with
      | zero =>
        obtain ⟨rfl, -⟩ := Prod.mk.inj (Option.some.inj h)
        rfl
      | succ depth =>
        obtain ⟨inside, hinside, rfl⟩ := map_cons_eq_some_iff.mp h
        simp [cutDoctype, ih hinside]
    · simp only [cutDoctype, if_neg hc] at h
      obtain ⟨inside, hinside, rfl⟩ := map_cons_eq_some_iff.mp h
      simp [cutDoctype, hc, ih hinside]

theorem cutDoctype_blank {c : Char} (hc : isBlank c) (depth : Nat) (cs : List Char) :
    cutDoctype depth (c :: cs) = (cutDoctype depth cs).map fun (inside, rest) => (c :: inside, rest) := by
  have hne {d : Char} (hd : isBlank d = false) : c ≠ d := by
    rintro rfl
    exact absurd hc (by simp [hd])
  simp [cutDoctype, hne (d := '>') rfl, hne (d := '<') rfl]

theorem cutDoctype_dropWhile {depth : Nat} {inside ds : List Char}
    (h : cutDoctype depth (inside ++ '>' :: ds) = some (inside, ds)) :
    cutDoctype depth (inside.dropWhile isBlank ++ '>' :: ds) =
      some (inside.dropWhile isBlank, ds) := by
  induction inside with
  | nil => exact h
  | cons c inside ih =>
    by_cases hc : isBlank c
    · rw [List.cons_append, cutDoctype_blank hc] at h
      obtain ⟨inside, hinside, heq⟩ := map_cons_eq_some_iff.mp h
      obtain ⟨-, rfl⟩ := List.cons.inj heq
      rw [List.dropWhile_cons_of_pos hc]
      exact ih hinside
    · rw [List.dropWhile_cons_of_neg hc]
      exact h

theorem readEvent_doctype (cs : List Char) :
    readEvent '<' ('!' :: ("DOCTYPE".toList ++ cs)) =
      match cutDoctype 0 cs with
      | none => .error .unclosed
      | some (inside, rest) =>
        match inside.dropWhile isBlank with
        | [] => .error .emptyDoctype
        | content => .ok (.doctype content, rest) :=
  rfl

end Doctype

theorem readBack_of_readDeclaration {cs rest : List Char} {e : Event}
    (h : readDeclaration cs = .ok (e, rest)) (ds : List Char) : e.ReadBack '<' ds := by
  unfold readDeclaration at h
  split at h
  · -- a comment
    split at h
    case h_2 => cases h
    rename_i content _ hcut
    cases h
    refine ⟨'!' :: '-' :: '-' :: (content ++ "-->".toList ++ ds), rfl, ?_⟩
    have hagain := cutAt_append (by simp) hcut ds
    simp only [readEvent, if_true, readMarkup, readDeclaration, hagain]
  · -- character data
    split at h
    case h_2 => cases h
    rename_i content _ hcut
    cases h
    refine ⟨'!' :: '[' :: 'C' :: 'D' :: 'A' :: 'T' :: 'A' :: '[' :: (content ++ "]]>".toList ++ ds),
      rfl, ?_⟩
    have hagain := cutAt_append (by simp) hcut ds
    simp only [readEvent, if_true, readMarkup, readDeclaration, hagain]
  · -- a doctype
    split at h
    case h_1 => cases h
    split at h
    case h_1 => cases h
    rename_i inside _ hcut
    split at h
    case h_1 => cases h
    cases h
    refine ⟨'!' :: ("DOCTYPE".toList ++ ' ' :: (inside.dropWhile isBlank ++ ['>'] ++ ds)), rfl, ?_⟩
    have hagain : cutDoctype 0 (' ' :: (inside.dropWhile isBlank ++ ['>'] ++ ds)) =
        some (' ' :: inside.dropWhile isBlank, ds) := by
      rw [cutDoctype_blank rfl, List.append_assoc, List.singleton_append,
        cutDoctype_dropWhile (cutDoctype_append hcut ds), Option.map_some]
    have hblank : (' ' :: inside.dropWhile isBlank).dropWhile isBlank = inside.dropWhile isBlank := by
      rw [List.dropWhile_cons_of_pos rfl, List.dropWhile_idempotent]
    rw [readEvent_doctype, hagain]
    simp only [hblank]

/-- The name of an end tag ends it as well without the white space that was left out. -/
theorem quoteAfter_closingName {inside : List Char} (h : quoteAfter none inside = some none) :
    quoteAfter none (closingName inside) = some none := by
  unfold closingName
  split
  · exact h
  · have hsplit : stripEnd isBlank inside ++ (inside.reverse.takeWhile isBlank).reverse = inside := by
      rw [stripEnd, ← List.reverse_append, List.takeWhile_append_dropWhile, List.reverse_reverse]
    rw [← hsplit] at h
    refine quoteAfter_of_append (quoteFree_of_blank fun c hc => ?_) h
    exact List.mem_takeWhile_imp (List.mem_reverse.mp hc)

theorem closingName_closingName (inside : List Char) :
    closingName (closingName inside) = closingName inside := by
  by_cases hall : inside.all isBlank
  · have hname : closingName inside = inside := if_pos hall
    rw [hname, hname]
  · have hname : closingName inside = inside.rdropWhile isBlank := if_neg hall
    rw [hname, closingName]
    split
    · rfl
    · exact List.rdropWhile_idempotent isBlank inside

theorem readMarkup_instruction {cs content rest : List Char} (h : ∀ ds, cs ≠ '>' :: ds)
    (hcut : cutAt ['?', '>'] cs = some (content, rest)) :
    readMarkup ('?' :: cs) = .ok (.instruction content, rest) := by
  rw [readMarkup]
  · rw [hcut]
  · exact h

theorem readBack_of_readMarkup {cs rest : List Char} {e : Event}
    (h : readMarkup cs = .ok (e, rest)) (he : ∀ t, e ≠ .start t ∧ e ≠ .empty t) (ds : List Char) :
    e.ReadBack '<' ds := by
  unfold readMarkup at h
  split at h
  · exact readBack_of_readDeclaration h ds
  · cases h
  · rename_i cs hfirst
    split at h
    case h_2 => cases h
    rename_i content _ hcut
    cases h
    refine ⟨'?' :: (content ++ ['?', '>'] ++ ds), rfl, ?_⟩
    have hagain := cutAt_append (by simp) hcut ds
    have hnot : ∀ tail, content ++ ['?', '>'] ++ ds ≠ '>' :: tail := by
      rw [eq_of_cutAt hcut] at hfirst
      cases content with
      | nil => simp
      | cons d content =>
        rintro tail heq
        obtain ⟨rfl, -⟩ := List.cons.inj heq
        exact hfirst _ rfl
    simp only [readEvent, if_true, readMarkup_instruction hnot hagain]
  · split at h
    case h_2 => cases h
    rename_i inside _ hcut
    cases h
    have hquote := quoteAfter_closingName (cutTag_eq_some_iff.mp hcut).2
    refine ⟨'/' :: (closingName inside ++ ['>'] ++ ds), rfl, ?_⟩
    have hagain : cutTag none (closingName inside ++ ['>'] ++ ds) = some (closingName inside, ds) :=
      cutTag_eq_some_iff.mpr ⟨by simp, hquote⟩
    simp only [readEvent, if_true, readMarkup, hagain, closingName_closingName]
  · split at h
    case h_2 => cases h
    cases h
    exfalso
    unfold openingEvent at he
    split at he
    · exact (he _).2 rfl
    · exact (he _).1 rfl

theorem readBack_of_readEvent {c : Char} {cs rest : List Char} {e : Event}
    (h : readEvent c cs = .ok (e, rest)) (he : ∀ t, e ≠ .start t ∧ e ≠ .empty t) {ds : List Char}
    (hds : ds.head? = rest.head?) : e.ReadBack c ds := by
  unfold readEvent at h
  split at h
  · rename_i hlt
    subst hlt
    exact readBack_of_readMarkup h he ds
  · rename_i hlt
    split at h
    · rename_i hamp
      subst hamp
      split at h
      case h_2 => cases h
      cases h
      refine ⟨cs.takeWhile inReferenceName ++ [';'] ++ ds, rfl, ?_⟩
      have hname : ∀ c ∈ cs.takeWhile inReferenceName, inReferenceName c :=
        fun c hc => List.mem_takeWhile_imp hc
      rw [readEvent, if_neg (by decide), if_pos rfl, List.append_assoc, List.singleton_append,
        dropWhile_append_cons hname rfl, takeWhile_append_cons hname rfl]
      rfl
    · rename_i hamp
      cases h
      refine ⟨cs.takeWhile inText ++ ds, rfl, ?_⟩
      have hcontent : ∀ c ∈ cs.takeWhile inText, inText c := fun c hc => List.mem_takeWhile_imp hc
      rw [readEvent, if_neg hlt, if_neg hamp, List.takeWhile_append_of_pos hcontent,
        List.dropWhile_append_of_pos hcontent]
      -- The text goes on in the next one unless that begins where the old text stopped.
      cases ds with
      | nil => simp
      | cons d ds =>
        have hd : inText d = false := by
          have := List.head?_dropWhile_not inText cs
          rw [← hds] at this
          simpa using this
        rw [List.takeWhile_cons_of_neg (by simp [hd]), List.dropWhile_cons_of_neg (by simp [hd]),
          List.append_nil]

section Tag

/-- Whether a text can follow the opening bracket of a tag: it does not begin like another
construct. -/
def OpensTag (cs : List Char) : Prop := ∀ c ∈ cs.head?, c ≠ '!' ∧ c ≠ '?' ∧ c ≠ '/'

/-- What holds of every tag that is read. -/
structure Tag.Sound (t : Tag) : Prop where
  /-- The name has no white space. -/
  name : ∀ c ∈ t.name, isBlank c = false
  opens : OpensTag t.name
  /-- No quote is open at the end of the tag, and the tag does not end before. -/
  closed : quoteAfter none (t.name ++ t.inside) = some none

theorem OpensTag.of_prefix {cs ds : List Char} (h : OpensTag ds) (hcs : cs <+: ds) : OpensTag cs := by
  obtain ⟨tail, rfl⟩ := hcs
  intro c hc
  cases cs with
  | nil => cases hc
  | cons d cs => exact h c hc

theorem OpensTag.append {cs : List Char} (h : OpensTag cs) (hne : cs ≠ []) (ds : List Char) :
    OpensTag (cs ++ ds) := by
  cases cs with
  | nil => exact absurd rfl hne
  | cons c cs => exact h

theorem Tag.ofInside_sound {inside : List Char} (hopens : OpensTag inside)
    (hclosed : quoteAfter none inside = some none) : (Tag.ofInside inside).Sound where
  name c hc := by simpa using List.mem_takeWhile_imp hc
  opens := hopens.of_prefix (List.takeWhile_prefix _)
  closed := by rwa [Tag.ofInside, List.takeWhile_append_dropWhile]

theorem Tag.ofInside_append {t : Tag} (hname : ∀ c ∈ t.name, isBlank c = false)
    (hinside : ∀ c ∈ t.inside.head?, isBlank c) : Tag.ofInside (t.name ++ t.inside) = t := by
  have hpos : ∀ c ∈ t.name, !isBlank c := fun c hc => by simp [hname c hc]
  obtain ⟨name, inside⟩ := t
  simp only [Tag.ofInside, List.takeWhile_append_of_pos hpos, List.dropWhile_append_of_pos hpos]
  cases inside with
  | nil => simp
  | cons c inside => simp [hinside c rfl]

theorem not_tag_of_readDeclaration {cs rest : List Char} {e : Event}
    (h : readDeclaration cs = .ok (e, rest)) (t : Tag) : ¬(e = .start t ∨ e = .empty t) := by
  unfold readDeclaration at h
  split at h
  · split at h <;> cases h
    simp
  · split at h <;> cases h
    simp
  · split at h
    · cases h
    · split at h
      · cases h
      · split at h <;> cases h
        simp

/-- A tag that is read stands in brackets. -/
theorem inside_of_readEvent {c : Char} {cs rest : List Char} {e : Event} {t : Tag}
    (h : readEvent c cs = .ok (e, rest)) (ht : e = .start t ∨ e = .empty t) :
    ∃ inside, c = '<' ∧ OpensTag inside ∧ quoteAfter none inside = some none ∧
      e = openingEvent inside := by
  unfold readEvent at h
  split at h
  case isFalse =>
    split at h
    · split at h <;> cases h
      simp at ht
    · cases h
      simp at ht
  case isTrue hlt =>
  unfold readMarkup at h
  split at h
  · exact absurd ht (not_tag_of_readDeclaration h t)
  · cases h
  · split at h <;> cases h
    simp at ht
  · split at h <;> cases h
    simp at ht
  · rename_i hdeclaration _ hinstruction hend
    split at h <;> cases h
    rename_i inside hcut
    obtain ⟨rfl, hclosed⟩ := cutTag_eq_some_iff.mp hcut
    have hopens : OpensTag (inside ++ '>' :: rest) := by
      intro d hd
      obtain ⟨ds, hds⟩ := List.head?_eq_some_iff.mp hd
      rw [hds] at hdeclaration hinstruction hend
      refine ⟨?_, ?_, ?_⟩ <;> rintro rfl
      · exact hdeclaration _ rfl
      · exact hinstruction _ rfl
      · exact hend _ rfl
    exact ⟨inside, hlt, hopens.of_prefix (List.prefix_append _ _), hclosed, rfl⟩

theorem Tag.sound_of_readEvent {c : Char} {cs rest : List Char} {e : Event} {t : Tag}
    (h : readEvent c cs = .ok (e, rest)) (ht : e = .start t ∨ e = .empty t) : t.Sound := by
  obtain ⟨inside, -, hopens, hclosed, rfl⟩ := inside_of_readEvent h ht
  unfold openingEvent at ht
  split at ht
  · rename_i hlast
    obtain rfl : Tag.ofInside inside.dropLast = t := by simpa using ht
    have hsplit : inside.dropLast ++ ['/'] = inside := List.dropLast_append_getLast? '/' hlast
    refine Tag.ofInside_sound (hopens.of_prefix (List.dropLast_prefix inside)) ?_
    exact quoteAfter_of_append (by decide) (hsplit ▸ hclosed)
  · obtain rfl : Tag.ofInside inside = t := by simpa using ht
    exact Tag.ofInside_sound hopens hclosed

theorem readEvent_tag {inside : List Char} (hne : inside ≠ []) (hopens : OpensTag inside)
    (hclosed : quoteAfter none inside = some none) (ds : List Char) :
    readEvent '<' (inside ++ ['>'] ++ ds) = .ok (openingEvent inside, ds) := by
  have hcut : cutTag none (inside ++ ['>'] ++ ds) = some (inside, ds) :=
    cutTag_eq_some_iff.mpr ⟨by simp, hclosed⟩
  have hhead : OpensTag (inside ++ ['>'] ++ ds) := by
    rw [List.append_assoc]
    exact hopens.append hne _
  rw [readEvent, if_pos rfl, readMarkup]
  · rw [hcut]
  · rintro tail htail
    exact (hhead '!' (by rw [htail]; rfl)).1 rfl
  · rintro tail htail
    exact (hhead '?' (by rw [htail]; rfl)).2.1 rfl
  · rintro tail htail
    exact (hhead '?' (by rw [htail]; rfl)).2.1 rfl
  · rintro tail htail
    exact (hhead '/' (by rw [htail]; rfl)).2.2 rfl

theorem Tag.Sound.readBack_start {t : Tag} (ht : t.Sound) (hname : t.name ≠ [])
    (hinside : ∀ c ∈ t.inside.head?, isBlank c) (hlast : (t.name ++ t.inside).getLast? ≠ some '/')
    (ds : List Char) : (Event.start t).ReadBack '<' ds := by
  have hevent : openingEvent (t.name ++ t.inside) = .start t := by
    rw [openingEvent, if_neg hlast, Tag.ofInside_append ht.name hinside]
  refine ⟨t.name ++ t.inside ++ ['>'] ++ ds, rfl, ?_⟩
  rw [readEvent_tag (by simp [hname]) (ht.opens.append hname _) ht.closed, hevent]

theorem Tag.Sound.readBack_empty {t : Tag} (ht : t.Sound) (hname : t.name ≠ [])
    (hinside : ∀ c ∈ t.inside.head?, isBlank c) (ds : List Char) :
    (Event.empty t).ReadBack '<' ds := by
  have hevent : openingEvent (t.name ++ t.inside ++ ['/']) = .empty t := by
    rw [openingEvent, if_pos (by simp), List.dropLast_concat, Tag.ofInside_append ht.name hinside]
  have hopens : OpensTag (t.name ++ t.inside ++ ['/']) := by
    rw [List.append_assoc]
    exact ht.opens.append hname _
  have hclosed : quoteAfter none (t.name ++ t.inside ++ ['/']) = some none := by
    rw [quoteAfter_append, ht.closed]
    rfl
  refine ⟨t.name ++ t.inside ++ ['/'] ++ ['>'] ++ ds, ?_, ?_⟩
  · change '<' :: (t.name ++ t.inside ++ ['/', '>'] ++ ds) = _
    simp
  · rw [readEvent_tag (by simp) hopens hclosed, hevent]

end Tag

end SchemaShapes.Xml
