import SchemaShapes.Proofs.Text.Cut
import SchemaShapes.Xml.Event

/-! Where tags end. A closing bracket ends a tag unless it stands in quotes, so reading a tag asks
nothing of its inside but which quote is open after each part of it. -/
namespace SchemaShapes.Xml

open Text (isBlank map_cons_eq_some_iff)

/-- A text without quotes. -/
def QuoteFree (cs : List Char) : Prop := '"' ∉ cs ∧ '\'' ∉ cs

instance (cs : List Char) : Decidable (QuoteFree cs) :=
  inferInstanceAs (Decidable ('"' ∉ cs ∧ '\'' ∉ cs))

/-- The quote that is open after a part of a tag, given the one that is open before it. There is
no such state if the tag ends inside the part. -/
def quoteAfter : Option Char → List Char → Option (Option Char)
  | q, [] => some q
  | none, c :: cs =>
    if c = '>' then none else quoteAfter (if c = '"' ∨ c = '\'' then some c else none) cs
  | some q, c :: cs => quoteAfter (if c = q then none else some q) cs

theorem quoteAfter_append (q : Option Char) (cs ds : List Char) :
    quoteAfter q (cs ++ ds) = (quoteAfter q cs).bind (quoteAfter · ds) := by
  induction cs generalizing q with
  | nil => rfl
  | cons c cs ih =>
    cases q with
    | none =>
      by_cases hc : c = '>'
      · simp [quoteAfter, hc]
      · simp only [List.cons_append, quoteAfter, if_neg hc, ih]
    | some q => simp only [List.cons_append, quoteAfter, ih]

/-- Without quotes, a part of a tag leaves the state as it is unless it ends the tag. -/
theorem quoteAfter_of_quoteFree {cs : List Char} (h : QuoteFree cs) (ds : List Char) :
    quoteAfter none (cs ++ ds) = if '>' ∈ cs then none else quoteAfter none ds := by
  obtain ⟨hdouble, hsingle⟩ := h
  induction cs with
  | nil => rfl
  | cons c cs ih =>
    obtain ⟨hc, hdouble⟩ := not_or.mp (mt List.mem_cons.mpr hdouble)
    obtain ⟨hc', hsingle⟩ := not_or.mp (mt List.mem_cons.mpr hsingle)
    have hquote : ¬(c = '"' ∨ c = '\'') := not_or.mpr ⟨Ne.symm hc, Ne.symm hc'⟩
    by_cases hend : c = '>'
    · simp [quoteAfter, hend]
    · rw [List.cons_append, quoteAfter, if_neg hend, if_neg hquote, ih hdouble hsingle]
      simp [Ne.symm hend]

theorem notMem_of_blank {blank : List Char} (h : ∀ c ∈ blank, isBlank c) {c : Char}
    (hc : isBlank c = false) : c ∉ blank :=
  fun hmem => absurd (h c hmem) (by simp [hc])

theorem quoteFree_of_blank {blank : List Char} (h : ∀ c ∈ blank, isBlank c) : QuoteFree blank :=
  ⟨notMem_of_blank h rfl, notMem_of_blank h rfl⟩

/-- White space neither opens quotes nor ends a tag. -/
theorem quoteAfter_of_blank {blank : List Char} (h : ∀ c ∈ blank, isBlank c) (ds : List Char) :
    quoteAfter none (blank ++ ds) = quoteAfter none ds := by
  rw [quoteAfter_of_quoteFree (quoteFree_of_blank h), if_neg (notMem_of_blank h rfl)]

theorem quoteAfter_of_notMem {q : Char} {cs : List Char} (h : q ∉ cs) :
    quoteAfter (some q) cs = some (some q) := by
  induction cs with
  | nil => rfl
  | cons c cs ih =>
    obtain ⟨hc, hcs⟩ := not_or.mp (mt List.mem_cons.mpr h)
    rw [quoteAfter, if_neg (Ne.symm hc), ih hcs]

/-- Whatever else it holds, quoted text ends at the next quote of its kind. -/
theorem quoteAfter_of_quoted {q : Char} {value : List Char} (h : q ∉ value) (ds : List Char) :
    quoteAfter (some q) (value ++ q :: ds) = quoteAfter none ds := by
  rw [quoteAfter_append, quoteAfter_of_notMem h, Option.bind_some, quoteAfter, if_pos rfl]

/-- Only quotes are ever open. -/
theorem quote_of_quoteAfter {q r : Option Char} {cs : List Char}
    (hq : ∀ x ∈ q, x = '"' ∨ x = '\'') (h : quoteAfter q cs = some r) :
    ∀ x ∈ r, x = '"' ∨ x = '\'' := by
  induction cs generalizing q with
  | nil =>
    cases h
    exact hq
  | cons c cs ih =>
    cases q with
    | none =>
      rw [quoteAfter] at h
      split at h
      · cases h
      · exact ih (by simp) h
    | some q => exact ih (by simpa using fun _ => hq q rfl) h

/-- What has no quotes opens and closes none. -/
theorem quoteAfter_of_append {cs ds : List Char} (hds : QuoteFree ds)
    (h : quoteAfter none (cs ++ ds) = some none) : quoteAfter none cs = some none := by
  rw [quoteAfter_append] at h
  obtain ⟨q, hq, hnone⟩ := Option.bind_eq_some_iff.mp h
  cases q with
  | none => exact hq
  | some q =>
    have hquote : q ∉ ds := by
      rcases quote_of_quoteAfter (by simp) hq q rfl with rfl | rfl
      · exact hds.1
      · exact hds.2
    rw [quoteAfter_of_notMem hquote] at hnone
    cases hnone

/-- A tag is cut at the first bracket with no quote open before it. -/
theorem cutTag_eq_some_iff {q : Option Char} {cs inside rest : List Char} :
    cutTag q cs = some (inside, rest) ↔
      cs = inside ++ '>' :: rest ∧ quoteAfter q inside = some none := by
  induction cs generalizing q inside with
  | nil => simp [cutTag]
  | cons c cs ih =>
    cases q with
    | none =>
      by_cases hc : c = '>'
      · subst hc
        simp only [cutTag, if_true, Option.some.injEq, Prod.mk.injEq]
        cases inside with
        | nil => simp [quoteAfter]
        | cons d inside => simp +contextual [quoteAfter, eq_comm]
      · simp only [cutTag, if_neg hc, map_cons_eq_some_iff, ih]
        cases inside with
        | nil => simp [quoteAfter, hc]
        | cons d inside => grind [quoteAfter]
    | some q =>
      simp only [cutTag, map_cons_eq_some_iff, ih]
      cases inside with
      | nil => simp [quoteAfter]
      | cons d inside => grind [quoteAfter]

end SchemaShapes.Xml
