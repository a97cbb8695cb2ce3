import Mathlib.Data.List.DropRight
import SchemaShapes.File.Path

/-! Steps of paths. The steps of the folder of a path and of a path that is seen from another one
follow from the steps of these paths, whatever their texts are. -/
namespace SchemaShapes.File.Path

open Text (notMem_of_mem_split split split_append split_ne_nil split_unsplit unsplit
  unsplit_split)

/-- The steps that parts stand for. -/
def stepsOf (parts : List (List Char)) : List Step :=
  (head parts).1.toList ++ (head parts).2.filterMap stepOf

theorem steps_eq (p : Path) : p.steps = stepsOf p.parts := rfl

theorem parts_ne_nil (p : Path) : p.parts ≠ [] := split_ne_nil _ _

theorem stepsOf_root {parts : List (List Char)} (h : parts ≠ []) :
    stepsOf ([] :: parts) = .root :: parts.filterMap stepOf := by
  obtain ⟨part, parts, rfl⟩ := List.exists_cons_of_ne_nil h
  rfl

theorem stepsOf_cons {part : List Char} (hne : part ≠ []) (hdot : part ≠ ['.'])
    (parts : List (List Char)) : stepsOf (part :: parts) = (part :: parts).filterMap stepOf := by
  have hhead : head (part :: parts) = (none, part :: parts) :=
    head.eq_3 _ (fun _ _ h => hne (List.cons.inj h).1) fun _ h => hdot (List.cons.inj h).1
  rw [stepsOf, hhead]
  rfl

theorem stepOf_of_ne {part : List Char} (hne : part ≠ []) (hdot : part ≠ ['.']) :
    ∃ s, stepOf part = some s := by
  unfold stepOf
  rw [if_neg (by simp [hne, hdot])]
  split <;> exact ⟨_, rfl⟩

/-- What is appended to a path never changes what the path begins with, unless the path is empty. -/
theorem stepsOf_append {parts : List (List Char)} (hne : parts ≠ []) (h : parts ≠ [[]])
    (more : List (List Char)) :
    stepsOf (parts ++ more) = stepsOf parts ++ more.filterMap stepOf := by
  obtain ⟨part, rest, rfl⟩ := List.exists_cons_of_ne_nil hne
  by_cases hempty : part = []
  · subst hempty
    have hrest : rest ≠ [] := fun hrest => h (by rw [hrest])
    rw [List.cons_append, stepsOf_root hrest, stepsOf_root (by simp [hrest]),
      List.filterMap_append, List.cons_append]
  by_cases hdot : part = ['.']
  · subst hdot
    change Step.here :: (rest ++ more).filterMap stepOf = Step.here :: rest.filterMap stepOf ++ _
    rw [List.filterMap_append, List.cons_append]
  · rw [List.cons_append, stepsOf_cons hempty hdot, stepsOf_cons hempty hdot, ← List.cons_append,
      List.filterMap_append]

theorem parts_eq_singleton_iff {p : Path} : p.parts = [[]] ↔ p.text = "" := by
  constructor
  · intro h
    have htext : p.text.toList = [] := by
      rw [← unsplit_split '/' p.text.toList, show split '/' p.text.toList = [[]] from h]
      rfl
    exact String.toList_eq_nil_iff.mp htext
  · intro h
    rw [parts, h]
    rfl

/-- Only the empty path has no steps at all. -/
theorem steps_eq_nil_iff {p : Path} : p.steps = [] ↔ p.text = "" := by
  rw [← parts_eq_singleton_iff, steps_eq]
  refine ⟨fun h => ?_, fun h => by rw [h]; rfl⟩
  obtain ⟨part, rest, hparts⟩ := List.exists_cons_of_ne_nil p.parts_ne_nil
  rw [hparts] at h ⊢
  by_cases hempty : part = []
  · subst hempty
    by_cases hrest : rest = []
    · rw [hrest]
    · rw [stepsOf_root hrest] at h
      cases h
  by_cases hdot : part = ['.']
  · subst hdot
    cases h
  · obtain ⟨s, hs⟩ := stepOf_of_ne hempty hdot
    rw [stepsOf_cons hempty hdot, List.filterMap_cons_some hs] at h
    cases h

/-! ### Paths seen from a folder -/

/-- A path that is seen from a folder has the steps of the folder and then its own ones. -/
theorem steps_join {p q : Path} (hp : p.text ≠ "") (hq : q.isAbsolute = false) :
    (p.join q).steps = p.steps ++ q.parts.filterMap stepOf := by
  unfold join
  rw [if_neg (by simp [hp, hq])]
  have hparts : p.parts ≠ [[]] := mt parts_eq_singleton_iff.mp hp
  split
  · next hlast =>
    obtain ⟨front, hfront⟩ := List.getLast?_eq_some_iff.mp hlast
    have hp : p.parts = split '/' front ++ [[]] := by
      rw [parts, hfront, split_append]
      rfl
    have hjoin : (⟨p.text ++ q.text⟩ : Path).parts = split '/' front ++ q.parts := by
      rw [parts, String.toList_append, hfront, List.append_assoc, List.singleton_append,
        split_append]
      rfl
    rw [steps_eq, steps_eq, hp, hjoin]
    by_cases hroot : split '/' front = [[]]
    · rw [hroot, List.singleton_append, List.singleton_append, stepsOf_root q.parts_ne_nil]
      rfl
    · rw [stepsOf_append (split_ne_nil _ _) hroot, stepsOf_append (split_ne_nil _ _) hroot]
      rw [show [[]].filterMap stepOf = [] from rfl, List.append_nil]
  · have hjoin : (⟨p.text ++ "/" ++ q.text⟩ : Path).parts = p.parts ++ q.parts := by
      have htext : (p.text ++ "/" ++ q.text).toList = p.text.toList ++ '/' :: q.text.toList := by
        simp
      rw [parts, htext, split_append]
      rfl
    rw [steps_eq, hjoin, stepsOf_append p.parts_ne_nil hparts, steps_eq]

theorem same_iff {p q : Path} : p.same q ↔ p.steps = q.steps := by
  rw [same, decide_eq_true_eq]

theorem same_join {p p' : Path} (h : p.same p') (q : Path) : (p.join q).same (p'.join q) := by
  rw [same_iff] at h ⊢
  have hempty : p.text = "" ↔ p'.text = "" := by
    rw [← steps_eq_nil_iff, ← steps_eq_nil_iff, h]
  by_cases hq : q.isAbsolute
  · simp [join, hq]
  by_cases hp : p.text = ""
  · simp [join, hp, hempty.mp hp]
  · rw [steps_join hp (by simpa using hq), steps_join (mt hempty.mpr hp) (by simpa using hq), h]

/-! ### Folders -/

/-- A beginning that a path with some parts may have: nothing only if they do not begin as after a
root or a dot. -/
def Begins (first : Option Step) (parts : List (List Char)) : Prop :=
  first = some .root ∨ first = some .here ∨
    first = none ∧ ∀ part ∈ parts.head?, part ≠ [] ∧ part ≠ ['.']

theorem steps_assemble {first : Option Step} {parts : List (List Char)}
    (hparts : ∀ part ∈ parts, '/' ∉ part) (h : Begins first parts) :
    (assemble first parts).steps = first.toList ++ parts.filterMap stepOf := by
  obtain rfl | rfl | ⟨rfl, hhead⟩ := h
  · have hroot : (assemble (some .root) parts).parts =
        [] :: split '/' (unsplit '/' parts) := by
      simp [assemble, Path.parts, split]
    rw [steps_eq, hroot, stepsOf_root (split_ne_nil _ _)]
    by_cases hne : parts = []
    · rw [hne]
      rfl
    · rw [split_unsplit hne hparts]
      rfl
  · have hhere : (assemble (some .here) parts).parts = ['.'] :: parts := by
      rw [assemble, Path.parts, String.toList_ofList]
      refine split_unsplit (List.cons_ne_nil _ _) fun part hpart => ?_
      rcases List.mem_cons.mp hpart with rfl | hpart
      · decide
      · exact hparts part hpart
    rw [steps_eq, hhere]
    rfl
  · rcases parts with _ | ⟨part, parts⟩
    · rfl
    · have hnone : (assemble none (part :: parts)).parts = part :: parts := by
        change split '/' (String.ofList (unsplit '/' (part :: parts))).toList = part :: parts
        rw [String.toList_ofList]
        exact split_unsplit (List.cons_ne_nil _ _) hparts
      obtain ⟨hne, hdot⟩ := hhead part rfl
      rw [steps_eq, hnone, stepsOf_cons hne hdot]
      rfl

theorem trimParts_eq (parts : List (List Char)) :
    trimParts parts = parts.rdropWhile (stepOf · = none) := rfl

theorem front_trimParts (parts : List (List Char)) : trimParts parts <+: parts := by
  rw [trimParts_eq]
  exact List.rdropWhile_prefix _ _

/-- The parts that are cut off lead nowhere. -/
theorem filterMap_trimParts (parts : List (List Char)) :
    (trimParts parts).filterMap stepOf = parts.filterMap stepOf := by
  induction parts using List.reverseRecOn with
  | nil => rfl
  | append_singleton parts part ih =>
    by_cases h : stepOf part = none
    · rw [trimParts_eq, List.rdropWhile_concat_pos _ _ _ (by simpa using h), ← trimParts_eq, ih,
        List.filterMap_append, List.filterMap_cons_none h, List.filterMap_nil, List.append_nil]
    · rw [trimParts_eq, List.rdropWhile_concat_neg _ _ _ (by simpa using h)]

/-- What a path that is not empty begins with is a beginning for the rest of it. -/
theorem begins_head {parts : List (List Char)} (h : parts ≠ [[]]) :
    Begins (head parts).1 (head parts).2 := by
  fun_cases head parts with
  | case1 => exact .inl rfl
  | case2 => exact .inr (.inl rfl)
  | case3 _ hroot hdot =>
    refine .inr (.inr ⟨rfl, fun part hpart => ?_⟩)
    obtain ⟨rest, rfl⟩ := List.head?_eq_some_iff.mp hpart
    refine ⟨?_, fun heq => hdot rest (by rw [heq])⟩
    rintro rfl
    rcases rest with _ | ⟨next, rest⟩
    · exact h rfl
    · exact hroot next rest rfl

theorem Begins.of_front {first : Option Step} {parts front : List (List Char)}
    (h : Begins first parts) (hfront : front <+: parts) : Begins first front := by
  refine h.imp id (Or.imp id fun ⟨hfirst, hhead⟩ => ⟨hfirst, fun part hpart => ?_⟩)
  obtain ⟨rest, rfl⟩ := List.head?_eq_some_iff.mp hpart
  obtain ⟨more, rfl⟩ := hfront
  exact hhead part rfl

theorem head_subset (parts : List (List Char)) : (head parts).2 ⊆ parts := by
  fun_cases head parts with
  | case1 => exact List.subset_cons_self _ _
  | case2 => exact List.subset_cons_self _ _
  | case3 => exact List.Subset.refl _

theorem slashFree_head (p : Path) : ∀ part ∈ (head p.parts).2, '/' ∉ part :=
  fun _ hpart => notMem_of_mem_split (head_subset _ hpart)

theorem stepOf_ne_root {part : List Char} : stepOf part ≠ some .root := by
  unfold stepOf
  split
  · simp
  · split <;> simp

theorem eq_of_stepOf_entry {part name : List Char} (h : stepOf part = some (.entry name)) :
    part = name := by
  unfold stepOf at h
  split at h
  · cases h
  · split at h
    · cases h
    · exact Step.entry.inj (Option.some.inj h)

/-- The last part that is left leads somewhere, so leaving it out takes the last step away. -/
theorem exists_last_step {parts : List (List Char)} (h : trimParts parts ≠ []) :
    ∃ s, s ≠ .root ∧
      parts.filterMap stepOf = (trimParts parts).dropLast.filterMap stepOf ++ [s] := by
  have hlast : stepOf ((trimParts parts).getLast h) ≠ none := by
    have hkept := List.rdropWhile_last_not (stepOf · = none) parts h
    exact of_decide_eq_false (Bool.not_eq_true _ ▸ hkept)
  obtain ⟨s, hs⟩ := Option.ne_none_iff_exists'.mp hlast
  refine ⟨s, ?_, ?_⟩
  · rintro rfl
    exact stepOf_ne_root hs
  · rw [← filterMap_trimParts]
    conv_lhs => rw [← List.dropLast_append_getLast h]
    rw [List.filterMap_append, List.filterMap_cons_some hs, List.filterMap_nil]

/-- The folder of a path has all steps of the path but the last. The root has no folder, and neither
has the path without any steps. -/
theorem parent_cases (p : Path) :
    p.parent = none ∧ (p.steps = [] ∨ p.steps = [.root]) ∨
      ∃ q, p.parent = some q ∧ q.steps = p.steps.dropLast ∧ p.steps ≠ [] ∧ p.steps ≠ [.root] := by
  by_cases htext : p.text = ""
  · refine .inl ⟨?_, .inl (steps_eq_nil_iff.mpr htext)⟩
    rw [parent, parts_eq_singleton_iff.mpr htext]
    rfl
  have hbegins := begins_head (mt parts_eq_singleton_iff.mp htext)
  have hfree := slashFree_head p
  rw [steps_eq, stepsOf, parent]
  generalize head p.parts = beginning at hbegins hfree ⊢
  obtain ⟨first, parts⟩ := beginning
  dsimp only at hbegins hfree ⊢
  by_cases hnil : trimParts parts = []
  · rw [← filterMap_trimParts, hnil]
    obtain rfl | rfl | ⟨rfl, -⟩ := hbegins
    · exact .inl ⟨rfl, .inr rfl⟩
    · exact .inr ⟨⟨""⟩, rfl, rfl, by simp, by simp⟩
    · exact .inl ⟨rfl, .inl rfl⟩
  · obtain ⟨s, hroot, hsteps⟩ := exists_last_step hnil
    have hfront : trimParts (trimParts parts).dropLast <+: parts := (front_trimParts _).trans
      ((List.dropLast_prefix _).trans (front_trimParts parts))
    rw [hsteps, ← List.append_assoc]
    refine .inr ⟨assemble first (trimParts (trimParts parts).dropLast), ?_, ?_,
      List.concat_ne_nil _ _, fun h => ?_⟩
    · cases h : trimParts parts with
      | nil => exact absurd h hnil
      | cons => rfl
    · rw [steps_assemble (fun part hpart => hfree part (hfront.subset hpart))
        (hbegins.of_front hfront), filterMap_trimParts, List.dropLast_concat]
    · obtain ⟨-, hlast⟩ := List.append_inj' (h.trans (List.nil_append _).symm) rfl
      exact hroot (List.head_eq_of_cons_eq hlast)

/-- One path has one folder, however the path is written. -/
theorem parent_of_same {p q : Path} (h : p.same q) :
    p.parent = none ∧ q.parent = none ∨
      ∃ folder other, p.parent = some folder ∧ q.parent = some other ∧ folder.same other := by
  rw [same_iff] at h
  rcases parent_cases p with ⟨hp, hpsteps⟩ | ⟨folder, hp, hpsteps, hpne, hproot⟩ <;>
    rcases parent_cases q with ⟨hq, hqsteps⟩ | ⟨other, hq, hqsteps, hqne, hqroot⟩
  · exact .inl ⟨hp, hq⟩
  · rw [h] at hpsteps
    exact absurd hpsteps (not_or.mpr ⟨hqne, hqroot⟩)
  · rw [← h] at hqsteps
    exact absurd hqsteps (not_or.mpr ⟨hpne, hproot⟩)
  · exact .inr ⟨folder, other, hp, hq, same_iff.mpr (by rw [hpsteps, hqsteps, h])⟩

end SchemaShapes.File.Path
