import SchemaShapes.Proofs.Text.Cut
import SchemaShapes.Xml.Reference

/-! Escaped values. What is written for a text stands for that text again and can go between
double quotes. -/
namespace SchemaShapes.Xml

open Text (dropWhile_append_cons length_dropWhile_le takeWhile_append_cons)

/-- What is written for one character: a reference that stands for it, or the character itself. -/
theorem escapeChar_cases (c : Char) :
    (∃ name, (∀ d ∈ name, inReference d) ∧ '"' ∉ name ∧ resolveReference name = some c ∧
      escapeChar c = '&' :: name ++ [';']) ∨
    (c ≠ '&' ∧ c ≠ '"' ∧ escapeChar c = [c]) := by
  unfold escapeChar
  split
  · exact .inl ⟨['l', 't'], by simp [inReference], by simp, rfl, rfl⟩
  · exact .inl ⟨['g', 't'], by simp [inReference], by simp, rfl, rfl⟩
  · exact .inl ⟨['a', 'm', 'p'], by simp [inReference], by simp, rfl, rfl⟩
  · exact .inl ⟨['a', 'p', 'o', 's'], by simp [inReference], by simp, rfl, rfl⟩
  · exact .inl ⟨['q', 'u', 'o', 't'], by simp [inReference], by simp, rfl, rfl⟩
  · rename_i hamp _ hquot
    exact .inr ⟨hamp, hquot, rfl⟩

theorem unescape_reference {name : List Char} {c : Char} (hname : ∀ d ∈ name, inReference d)
    (hc : resolveReference name = some c) (cs : List Char) :
    unescape ('&' :: name ++ ';' :: cs) = (unescape cs).map (c :: ·) := by
  have hdrop : (name ++ ';' :: cs).dropWhile inReference = ';' :: cs :=
    dropWhile_append_cons hname rfl cs
  have htake : (name ++ ';' :: cs).takeWhile inReference = name :=
    takeWhile_append_cons hname rfl cs
  rw [List.cons_append, unescape]
  split
  · rename_i rest hrest
    obtain ⟨-, rfl⟩ := List.cons.inj (hdrop.symm.trans hrest)
    rw [htake, hc]
    cases unescape cs <;> rfl
  · rename_i hrest
    exact absurd hdrop (hrest cs)

theorem unescape_cons {c : Char} (h : c ≠ '&') (cs : List Char) :
    unescape (c :: cs) = (unescape cs).map (c :: ·) := by
  rw [unescape]
  exact h

theorem unescape_escape (cs : List Char) : unescape (escape cs) = some cs := by
  induction cs with
  | nil => rw [escape, List.flatMap_nil, unescape]
  | cons c cs ih =>
    rw [escape] at ih
    rw [escape, List.flatMap_cons]
    rcases escapeChar_cases c with ⟨name, hname, -, hc, heq⟩ | ⟨hc, -, heq⟩
    · rw [heq, List.append_assoc, List.singleton_append, unescape_reference hname hc, ih]
      rfl
    · rw [heq, List.singleton_append, unescape_cons hc, ih]
      rfl

theorem unescape_of_notMem {cs : List Char} (h : '&' ∉ cs) : unescape cs = some cs := by
  induction cs with
  | nil => rw [unescape]
  | cons c cs ih =>
    obtain ⟨hc, hcs⟩ : '&' ≠ c ∧ '&' ∉ cs := by simpa using h
    rw [unescape_cons (Ne.symm hc), ih hcs]
    rfl

/-- A text stands for some text of at least one character, and for a shorter one if it has a
reference. -/
theorem length_of_unescape {cs ds : List Char} (h : unescape cs = some ds) :
    ds.length ≤ cs.length ∧ ('&' ∈ cs → ds.length < cs.length) ∧ (cs ≠ [] → ds ≠ []) := by
  fun_induction unescape cs generalizing ds with
  | case1 =>
    cases h
    simp
  | case2 cs rest hrest ih =>
    obtain ⟨c, -, h⟩ := Option.bind_eq_some_iff.mp h
    obtain ⟨tail, htail, h⟩ := Option.bind_eq_some_iff.mp h
    cases h
    obtain ⟨hle, -, -⟩ := ih htail
    have hlength := length_dropWhile_le inReference cs
    rw [hrest] at hlength
    simp only [List.length_cons] at hlength ⊢
    refine ⟨by omega, fun _ => by omega, by simp⟩
  | case3 => cases h
  | case4 c cs hc ih =>
    obtain ⟨tail, htail, rfl⟩ := Option.map_eq_some_iff.mp h
    obtain ⟨hle, hlt, -⟩ := ih htail
    simp only [List.length_cons]
    refine ⟨by omega, fun hmem => ?_, by simp⟩
    rcases List.mem_cons.mp hmem with rfl | hmem
    · exact absurd rfl hc
    · have := hlt hmem
      omega

theorem quote_notMem_escape (cs : List Char) : '"' ∉ escape cs := by
  intro hmem
  obtain ⟨c, -, hc⟩ := List.mem_flatMap.mp hmem
  rcases escapeChar_cases c with ⟨name, -, hname, -, heq⟩ | ⟨-, hquot, heq⟩
  · rw [heq] at hc
    simp [hname] at hc
  · rw [heq] at hc
    exact hquot (List.mem_singleton.mp hc).symm

end SchemaShapes.Xml
