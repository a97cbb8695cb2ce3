import SchemaShapes.Text.Cut

/-! Cutting again. Where a text is cut does not depend on what follows the mark or the character
that ends a part of it, so what stood before is found again in front of any other text. -/
namespace SchemaShapes.Text

/-- A cut goes on behind a character as it does without it. -/
theorem map_cons_eq_some_iff {c : Char} {cut : Option (List Char × List Char)}
    {before after : List Char} :
    (cut.map fun (b, a) => (c :: b, a)) = some (before, after) ↔
      ∃ b, cut = some (b, after) ∧ before = c :: b := by
  constructor
  · intro h
    obtain ⟨⟨b, a⟩, hb, heq⟩ := Option.map_eq_some_iff.mp h
    obtain ⟨rfl, rfl⟩ := Prod.mk.inj heq
    exact ⟨b, hb, rfl⟩
  · rintro ⟨b, hb, rfl⟩
    rw [hb]
    rfl

theorem cutAt_append {mark cs before after : List Char} (hmark : mark ≠ [])
    (h : cutAt mark cs = some (before, after)) (rest : List Char) :
    cutAt mark (before ++ mark ++ rest) = some (before, rest) := by
  induction cs generalizing before with
  | nil => simp [cutAt] at h
  | cons c cs ih =>
    by_cases hp : mark.isPrefixOf (c :: cs)
    · simp only [cutAt, hp, if_true, Option.some.injEq, Prod.mk.injEq] at h
      obtain ⟨rfl, -⟩ := h
      cases mark with
      | nil => exact absurd rfl hmark
      | cons m ms =>
        have hprefix : (m :: ms).isPrefixOf (m :: (ms ++ rest)) :=
          List.isPrefixOf_iff_prefix.mpr ⟨rest, rfl⟩
        rw [List.nil_append, List.cons_append, cutAt, if_pos hprefix, ← List.cons_append,
          List.drop_left]
    · simp only [cutAt, hp] at h
      obtain ⟨b, hb, rfl⟩ := map_cons_eq_some_iff.mp h
      -- A mark that began earlier would end before what follows, so it would be in the old text too.
      have hnot : ¬mark.isPrefixOf (c :: (b ++ mark ++ rest)) := by
        intro hearly
        have hshort : mark <+: c :: (b ++ mark) :=
          List.prefix_of_prefix_length_le (List.isPrefixOf_iff_prefix.mp hearly)
            ⟨rest, by simp⟩ (by simp; omega)
        refine hp (List.isPrefixOf_iff_prefix.mpr (hshort.trans ⟨after, ?_⟩))
        rw [eq_of_cutAt hb]
        simp
      rw [List.cons_append, List.cons_append, cutAt, if_neg hnot, ih hb]
      rfl

theorem notMem_of_cutAt {c : Char} {cs before after : List Char}
    (h : cutAt [c] cs = some (before, after)) : c ∉ before := by
  induction cs generalizing before with
  | nil => simp [cutAt] at h
  | cons d cs ih =>
    by_cases hp : [c].isPrefixOf (d :: cs)
    · simp only [cutAt, hp, if_true, Option.some.injEq, Prod.mk.injEq] at h
      simp [← h.1]
    · simp only [cutAt, hp] at h
      obtain ⟨b, hb, rfl⟩ := map_cons_eq_some_iff.mp h
      have hcd : c ≠ d := by simpa using hp
      exact fun hmem => (List.mem_cons.mp hmem).elim hcd (ih hb)

theorem cutAt_of_notMem {c : Char} {before : List Char} (h : c ∉ before) (after : List Char) :
    cutAt [c] (before ++ c :: after) = some (before, after) := by
  induction before with
  | nil => simp [cutAt]
  | cons d ds ih =>
    obtain ⟨hcd, hds⟩ := not_or.mp (mt List.mem_cons.mpr h)
    simp [cutAt, hcd, ih hds]

theorem cutAt_eq_none_iff {c : Char} {cs : List Char} : cutAt [c] cs = none ↔ c ∉ cs := by
  induction cs with
  | nil => simp [cutAt]
  | cons d ds ih => by_cases hcd : c = d <;> simp [cutAt, hcd, ih]

theorem dropWhile_append_cons {p : Char → Bool} {cs : List Char} {c : Char} (hcs : ∀ d ∈ cs, p d)
    (hc : p c = false) (ds : List Char) : (cs ++ c :: ds).dropWhile p = c :: ds := by
  rw [List.dropWhile_append_of_pos hcs, List.dropWhile_cons_of_neg (by simp [hc])]

theorem takeWhile_append_cons {p : Char → Bool} {cs : List Char} {c : Char} (hcs : ∀ d ∈ cs, p d)
    (hc : p c = false) (ds : List Char) : (cs ++ c :: ds).takeWhile p = cs := by
  rw [List.takeWhile_append_of_pos hcs, List.takeWhile_cons_of_neg (by simp [hc]), List.append_nil]

end SchemaShapes.Text
