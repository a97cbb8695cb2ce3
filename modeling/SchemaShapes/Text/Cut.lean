/-! Cutting a text, as a list of characters, at the first occurrence of a mark. -/
namespace SchemaShapes.Text

/-- What stands before the first occurrence of a mark, and what stands after it. -/
def cutAt (mark : List Char) : List Char → Option (List Char × List Char)
  | [] => none
  | c :: cs =>
    if mark.isPrefixOf (c :: cs) then
      some ([], (c :: cs).drop mark.length)
    else
      (cutAt mark cs).map fun (before, after) => (c :: before, after)

theorem eq_of_cutAt {mark cs before after : List Char} (h : cutAt mark cs = some (before, after)) :
    cs = before ++ mark ++ after := by
  induction cs generalizing before with
  | nil => simp [cutAt] at h
  | cons c cs ih =>
    by_cases hp : mark.isPrefixOf (c :: cs)
    · simp only [cutAt, hp, if_true, Option.some.injEq, Prod.mk.injEq] at h
      obtain ⟨rfl, rfl⟩ := h
      obtain ⟨rest, hrest⟩ := List.isPrefixOf_iff_prefix.1 hp
      simp [← hrest]
    · simp only [cutAt, hp] at h
      obtain ⟨⟨b, a⟩, hb, hba⟩ := Option.map_eq_some_iff.1 h
      simp only [Prod.mk.injEq] at hba
      obtain ⟨rfl, rfl⟩ := hba
      simp [ih hb]

theorem length_of_cutAt {mark cs before after : List Char}
    (h : cutAt mark cs = some (before, after)) : after.length + mark.length ≤ cs.length := by
  have := congrArg List.length (eq_of_cutAt h)
  simp only [List.length_append] at this
  omega

theorem length_dropWhile_le (p : Char → Bool) (cs : List Char) :
    (cs.dropWhile p).length ≤ cs.length :=
  (List.dropWhile_suffix p).length_le

end SchemaShapes.Text
