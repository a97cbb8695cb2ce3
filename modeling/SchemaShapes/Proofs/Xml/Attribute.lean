import Mathlib.Data.List.TakeWhile
import SchemaShapes.Proofs.Text.Cut
import SchemaShapes.Proofs.Xml.Tag

/-! How attributes are written. The spellings of a list of attributes differ in white space and in
the kind of quotes; reading finds the attributes from any of them and accepts nothing else. -/
namespace SchemaShapes.Xml

open Text (cutAt_of_notMem dropWhile_append_cons eq_of_cutAt isBlank notMem_of_cutAt
  takeWhile_append_cons)

/-- What can be read as a key: a character other than white space, which may be an equals sign,
and then none of the two. -/
def IsKey : List Char → Prop
  | [] => False
  | c :: cs => isBlank c = false ∧ ∀ d ∈ cs, inKey d

/-- The spellings of an attribute. -/
inductive Attribute.Spells (a : Attribute) : List Char → Prop
  | mk {before after : List Char} {q : Char} (hkey : IsKey a.key) (hbefore : ∀ c ∈ before, isBlank c)
      (hafter : ∀ c ∈ after, isBlank c) (hq : q = '"' ∨ q = '\'') (hvalue : q ∉ a.value) :
      Spells a (a.key ++ before ++ '=' :: after ++ q :: a.value ++ [q])

/-- The spellings of a list of attributes. -/
inductive Spelling : List Attribute → List Char → Prop
  | nil {blank : List Char} (hblank : ∀ c ∈ blank, isBlank c) : Spelling [] blank
  | cons {blank cs rest : List Char} {a : Attribute} {as : List Attribute}
      (hblank : ∀ c ∈ blank, isBlank c) (ha : a.Spells cs) (has : Spelling as rest) :
      Spelling (a :: as) (blank ++ cs ++ rest)

section Reading

theorem readQuoted_append {q : Char} {value : List Char} (hq : q = '"' ∨ q = '\'')
    (hvalue : q ∉ value) (rest : List Char) :
    readQuoted (q :: value ++ q :: rest) = some (value, rest) := by
  rcases hq with rfl | rfl <;> exact cutAt_of_notMem hvalue rest

theorem eq_of_readQuoted {cs value rest : List Char} (h : readQuoted cs = some (value, rest)) :
    ∃ q, (q = '"' ∨ q = '\'') ∧ q ∉ value ∧ cs = q :: value ++ q :: rest := by
  unfold readQuoted at h
  split at h
  · exact ⟨_, .inl rfl, notMem_of_cutAt h, by simp [eq_of_cutAt h]⟩
  · exact ⟨_, .inr rfl, notMem_of_cutAt h, by simp [eq_of_cutAt h]⟩
  · cases h

theorem Attribute.Spells.read {a : Attribute} {cs : List Char} (h : a.Spells cs)
    (rest : List Char) : readAttribute (cs ++ rest) = some (a, rest) := by
  obtain ⟨hkey, hbefore, hafter, hq, hvalue⟩ := h
  rename_i before after q
  obtain ⟨key, value⟩ := a
  cases key with
  | nil => exact hkey.elim
  | cons c key =>
    have hquote : isBlank q = false := by rcases hq with rfl | rfl <;> rfl
    have hequals : (before ++ '=' :: (after ++ (q :: value ++ q :: rest))).dropWhile isBlank =
        '=' :: (after ++ (q :: value ++ q :: rest)) :=
      dropWhile_append_cons hbefore rfl _
    -- The key ends at white space, if there is any before the equals sign, and else at the sign.
    have hend : ∃ d ds, before ++ '=' :: (after ++ (q :: value ++ q :: rest)) = d :: ds ∧
        inKey d = false := by
      cases before with
      | nil => exact ⟨_, _, rfl, rfl⟩
      | cons d ds => exact ⟨d, _, rfl, by simp [inKey, hbefore d (by simp)]⟩
    obtain ⟨d, ds, hds, hd⟩ := hend
    have hcs : (c :: key) ++ before ++ '=' :: after ++ q :: value ++ [q] ++ rest =
        c :: (key ++ d :: ds) := by
      rw [← hds]
      simp
    rw [hcs, readAttribute, dropWhile_append_cons hkey.2 hd, takeWhile_append_cons hkey.2 hd, ← hds,
      hequals]
    simp only [List.cons_append, dropWhile_append_cons hafter hquote]
    rw [← List.cons_append, readQuoted_append hq hvalue]
    rfl

theorem spells_of_readAttribute {c : Char} {cs rest : List Char} {a : Attribute}
    (h : readAttribute (c :: cs) = some (a, rest)) (hc : isBlank c = false) :
    ∃ ds, a.Spells ds ∧ c :: cs = ds ++ rest := by
  rw [readAttribute] at h
  split at h
  case h_2 => cases h
  case h_1 tail htail =>
  obtain ⟨⟨value, rest'⟩, hquoted, heq⟩ := Option.map_eq_some_iff.mp h
  obtain ⟨rfl, rfl⟩ := Prod.mk.inj heq
  obtain ⟨q, hq, hvalue, hrest⟩ := eq_of_readQuoted hquoted
  refine ⟨_, .mk (q := q) ⟨hc, fun d hd => List.mem_takeWhile_imp hd⟩
    (fun d hd => List.mem_takeWhile_imp (l := cs.dropWhile inKey) hd)
    (fun d hd => List.mem_takeWhile_imp (l := tail) hd) hq hvalue, ?_⟩
  calc c :: cs
      = c :: (cs.takeWhile inKey ++ ((cs.dropWhile inKey).takeWhile isBlank ++
          (cs.dropWhile inKey).dropWhile isBlank)) := by
        rw [List.takeWhile_append_dropWhile, List.takeWhile_append_dropWhile]
    _ = c :: (cs.takeWhile inKey ++ ((cs.dropWhile inKey).takeWhile isBlank ++
          '=' :: (tail.takeWhile isBlank ++ (q :: value ++ q :: rest')))) := by
        rw [htail, ← hrest, List.takeWhile_append_dropWhile]
    _ = _ := by simp

theorem Attribute.Spells.head {a : Attribute} {cs : List Char} (h : a.Spells cs) :
    ∃ c ds, cs = c :: ds ∧ isBlank c = false := by
  obtain ⟨hkey, -, -, -, -⟩ := h
  obtain ⟨key, value⟩ := a
  cases key with
  | nil => exact hkey.elim
  | cons c key => exact ⟨c, _, rfl, hkey.1⟩

theorem readAttributeList_of_blank {cs : List Char} (h : ∀ c ∈ cs, isBlank c) :
    readAttributeList cs = some [] := by
  have hcs : cs.dropWhile isBlank = [] := List.dropWhile_eq_nil_iff.mpr h
  rw [readAttributeList]
  split
  · rfl
  · rename_i hcons
    exact absurd (hcs.symm.trans hcons) (List.cons_ne_nil _ _).symm

theorem readAttributeList_append {blank cs : List Char} {a : Attribute}
    (hblank : ∀ c ∈ blank, isBlank c) (ha : a.Spells cs) (rest : List Char) :
    readAttributeList (blank ++ cs ++ rest) = (readAttributeList rest).map (a :: ·) := by
  have hread := ha.read rest
  obtain ⟨c, ds, rfl, hc⟩ := ha.head
  have hcs : (blank ++ c :: ds ++ rest).dropWhile isBlank = c :: ds ++ rest := by
    rw [List.append_assoc]
    exact dropWhile_append_cons hblank hc _
  rw [readAttributeList]
  split
  case h_1 hnil => exact absurd (hcs.symm.trans hnil) (List.cons_ne_nil _ _)
  case h_2 c' tail hcons =>
  rw [← hcons.symm.trans hcs] at hread
  rw [hread]

end Reading

/-- The attributes that are read from the inside of a tag are those that it spells. -/
theorem readAttributeList_eq_some_iff {as : List Attribute} {cs : List Char} :
    readAttributeList cs = some as ↔ Spelling as cs := by
  constructor
  · intro h
    fun_induction readAttributeList cs generalizing as with
    | case1 cs hcs =>
      cases h
      exact .nil (List.dropWhile_eq_nil_iff.mp hcs)
    | case2 => cases h
    | case3 cs c tail hcs a rest hread ih =>
      obtain ⟨as', has, rfl⟩ := Option.map_eq_some_iff.mp h
      have hc : isBlank c = false := by
        simpa [hcs] using List.head_dropWhile_not isBlank (l := cs) (by simp [hcs])
      obtain ⟨ds, hds, htail⟩ := spells_of_readAttribute hread hc
      have hsplit : cs = cs.takeWhile isBlank ++ ds ++ rest := by
        rw [List.append_assoc, ← htail, ← hcs, List.takeWhile_append_dropWhile]
      rw [hsplit]
      exact .cons (fun d hd => List.mem_takeWhile_imp hd) hds (ih has)
  · intro h
    induction h with
    | nil hblank => exact readAttributeList_of_blank hblank
    | cons hblank ha has ih => rw [readAttributeList_append hblank ha, ih, Option.map_some]

theorem Spelling.keys {as : List Attribute} {cs : List Char} (h : Spelling as cs) :
    ∀ a ∈ as, IsKey a.key := by
  induction h with
  | nil => simp
  | cons hblank ha has ih =>
    obtain ⟨hkey, -, -, -, -⟩ := ha
    exact List.forall_mem_cons.mpr ⟨hkey, ih⟩

theorem Attribute.Spells.quoteAfter {a : Attribute} {cs : List Char} (h : a.Spells cs)
    (hkey : QuoteFree a.key) (ds : List Char) :
    quoteAfter none (cs ++ ds) = if '>' ∈ a.key then none else quoteAfter none ds := by
  obtain ⟨-, hbefore, hafter, hq, hvalue⟩ := h
  rename_i before after q
  have hopen (ds : List Char) : Xml.quoteAfter none (q :: ds) = Xml.quoteAfter (some q) ds := by
    rcases hq with rfl | rfl <;> rfl
  have hequals (ds : List Char) : Xml.quoteAfter none ('=' :: ds) = Xml.quoteAfter none ds := rfl
  simp only [List.append_assoc, List.cons_append, List.nil_append]
  rw [quoteAfter_of_quoteFree hkey, quoteAfter_of_blank hbefore, hequals,
    quoteAfter_of_blank hafter, hopen, quoteAfter_of_quoted hvalue]

/-- As long as no key holds a quote, quotes are closed after the attributes, and no bracket before
their end is taken for the end of the tag but one in a key. -/
theorem Spelling.quoteAfter {as : List Attribute} {cs : List Char} (h : Spelling as cs)
    (hkeys : ∀ a ∈ as, QuoteFree a.key) :
    quoteAfter none cs = some none ↔ ∀ a ∈ as, '>' ∉ a.key := by
  induction h with
  | nil hblank =>
    have := quoteAfter_of_blank hblank []
    rw [List.append_nil] at this
    simp [this, Xml.quoteAfter]
  | cons hblank ha has ih =>
    obtain ⟨hkey, hkeys⟩ := List.forall_mem_cons.mp hkeys
    rw [List.append_assoc, quoteAfter_of_blank hblank, ha.quoteAfter hkey, List.forall_mem_cons,
      ← ih hkeys]
    split <;> simp_all

theorem Attribute.spells_render {a : Attribute} (hkey : IsKey a.key) (hvalue : '"' ∉ a.value) :
    ∃ cs, a.Spells cs ∧ a.render = ' ' :: cs := by
  have hnone : ∀ c ∈ ([] : List Char), isBlank c := by simp
  exact ⟨_, .mk hkey hnone hnone (.inl rfl) hvalue, by simp [Attribute.render]⟩

/-- Attributes are spelled by what is written for them unless a double quote in a value ends the
value too early. -/
theorem spelling_render {as : List Attribute} (h : ∀ a ∈ as, IsKey a.key ∧ '"' ∉ a.value) :
    Spelling as (as.flatMap Attribute.render) := by
  have hspace : ∀ c ∈ [' '], isBlank c := by simp [isBlank]
  induction as with
  | nil => exact .nil (by simp)
  | cons a as ih =>
    obtain ⟨⟨hkey, hvalue⟩, has⟩ := List.forall_mem_cons.mp h
    obtain ⟨cs, hcs, hrender⟩ := a.spells_render hkey hvalue
    rw [List.flatMap_cons, hrender]
    exact .cons hspace hcs (ih has)

end SchemaShapes.Xml
