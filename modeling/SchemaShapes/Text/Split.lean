/-! Splitting a text, as a list of characters, at every occurrence of a character. -/
namespace SchemaShapes.Text

/-- The parts of a text between the occurrences of a mark. -/
def split (mark : Char) : List Char → List (List Char)
  | [] => [[]]
  | c :: cs =>
    if c = mark then [] :: split mark cs
    else
      match split mark cs with
      | [] => [[c]]
      | part :: parts => (c :: part) :: parts

/-- The text with a mark between the given parts. -/
def unsplit (mark : Char) : List (List Char) → List Char
  | [] => []
  | [part] => part
  | part :: parts => part ++ mark :: unsplit mark parts

theorem split_ne_nil (mark : Char) (cs : List Char) : split mark cs ≠ [] := by
  cases cs with
  | nil => simp [split]
  | cons c cs =>
    unfold split
    split
    · simp
    · split <;> simp

theorem unsplit_split (mark : Char) (cs : List Char) : unsplit mark (split mark cs) = cs := by
  induction cs with
  | nil => rfl
  | cons c cs ih =>
    unfold split
    split
    · next h =>
      cases hs : split mark cs with
      | nil => exact absurd hs (split_ne_nil mark cs)
      | cons part parts =>
        rw [hs] at ih
        simp [unsplit, h, ih]
    · next h =>
      cases hs : split mark cs with
      | nil => exact absurd hs (split_ne_nil mark cs)
      | cons part parts =>
        rw [hs] at ih
        cases parts with
        | nil => simp_all [unsplit]
        | cons next parts => simp_all [unsplit]

theorem split_append (mark : Char) (cs ds : List Char) :
    split mark (cs ++ mark :: ds) = split mark cs ++ split mark ds := by
  induction cs with
  | nil => simp [split]
  | cons c cs ih =>
    by_cases hc : c = mark
    · simp [split, hc, ih]
    · cases hs : split mark cs with
      | nil => exact absurd hs (split_ne_nil mark cs)
      | cons part parts => simp [split, hc, ih, hs]

theorem split_of_notMem {mark : Char} {cs : List Char} (h : mark ∉ cs) : split mark cs = [cs] := by
  induction cs with
  | nil => rfl
  | cons c cs ih =>
    rw [List.mem_cons, not_or] at h
    simp [split, Ne.symm h.1, ih h.2]

theorem split_unsplit {mark : Char} {parts : List (List Char)} (hne : parts ≠ [])
    (h : ∀ part ∈ parts, mark ∉ part) : split mark (unsplit mark parts) = parts := by
  fun_induction unsplit mark parts with
  | case1 => exact absurd rfl hne
  | case2 part => exact split_of_notMem (h part List.mem_cons_self)
  | case3 part parts hparts ih =>
    rw [split_append, split_of_notMem (h part List.mem_cons_self),
      ih hparts fun next hnext => h next (List.mem_cons_of_mem _ hnext)]
    rfl

theorem notMem_of_mem_split {mark : Char} {cs part : List Char} (h : part ∈ split mark cs) :
    mark ∉ part := by
  induction cs generalizing part with
  | nil =>
    obtain rfl := List.mem_singleton.mp h
    simp
  | cons c cs ih =>
    unfold split at h
    split at h
    · rcases List.mem_cons.mp h with rfl | h
      · simp
      · exact ih h
    · next hc =>
      split at h
      · next hs => exact absurd hs (split_ne_nil mark cs)
      · next first parts hs =>
        rcases List.mem_cons.mp h with rfl | h
        · have hfirst : mark ∉ first := ih (by simp [hs])
          simp [Ne.symm hc, hfirst]
        · exact ih (by simp [hs, h])

end SchemaShapes.Text
