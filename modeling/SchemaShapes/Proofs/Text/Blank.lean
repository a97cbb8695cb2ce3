import Mathlib.Data.List.DropRight
import SchemaShapes.Proofs.Text.Cut
import SchemaShapes.Text.Blank

/-! White space around a text. What is left of a text when the characters of a class are stripped
from its ends is the one part of it that neither begins nor ends with such a character and has
nothing but them around it. -/
namespace SchemaShapes.Text

/-- The characters that have the Unicode property `White_Space`. -/
def whiteSpace : List Char :=
  ['\t', '\n', '\u000b', '\u000c', '\r', ' ', '\u0085', '\u00a0', '\u1680', '\u2000', '\u2001',
    '\u2002', '\u2003', '\u2004', '\u2005', '\u2006', '\u2007', '\u2008', '\u2009', '\u200a',
    '\u2028', '\u2029', '\u202f', '\u205f', '\u3000']

theorem isSpace_iff {c : Char} : isSpace c ↔ c ∈ whiteSpace := by
  have hinjective : Function.Injective Char.toNat := fun _ _ => Char.toNat_inj.mp
  rw [← List.mem_map_of_injective hinjective]
  simp [isSpace, whiteSpace]
  omega

/-- A part of a text that has nothing but characters of a class around it, and none of them at its
own ends. -/
structure Core (p : Char → Prop) (cs core : List Char) : Prop where
  around : ∃ before after, cs = before ++ core ++ after ∧ (∀ c ∈ before, p c) ∧ ∀ c ∈ after, p c
  head : ∀ c ∈ core.head?, ¬p c
  last : ∀ c ∈ core.getLast?, ¬p c

theorem core_self {p : Char → Prop} {cs : List Char} (h : ∀ c ∈ cs, ¬p c) : Core p cs cs where
  around := ⟨[], [], by simp⟩
  head c hc := h c (List.mem_of_mem_head? hc)
  last c hc := h c (List.mem_of_mem_getLast? hc)

section

variable {p : Char → Bool} {cs core : List Char}

theorem stripEnd_append {after : List Char} (h : ∀ c ∈ after, p c) (cs : List Char) :
    stripEnd p (cs ++ after) = stripEnd p cs := by
  have hafter : ∀ c ∈ after.reverse, p c := fun c hc => h c (List.mem_reverse.mp hc)
  rw [stripEnd, List.reverse_append, List.dropWhile_append_of_pos hafter, stripEnd]

theorem core_strip (p : Char → Bool) (cs : List Char) : Core (p ·) cs (strip p cs) where
  around := by
    refine ⟨cs.takeWhile p, (cs.dropWhile p).rtakeWhile p, ?_,
      fun c hc => List.mem_takeWhile_imp hc, fun c hc => List.mem_rtakeWhile_imp hc⟩
    have hend : strip p cs ++ (cs.dropWhile p).rtakeWhile p = cs.dropWhile p :=
      List.rdropWhile_append_rtakeWhile
    rw [List.append_assoc, hend, List.takeWhile_append_dropWhile]
  head c hc := by
    obtain ⟨rest, hrest⟩ := List.head?_eq_some_iff.mp hc
    obtain ⟨after, hafter⟩ : strip p cs <+: cs.dropWhile p := List.rdropWhile_prefix p _
    have hhead := List.head?_dropWhile_not p cs
    rw [← hafter, hrest] at hhead
    simpa using hhead
  last c hc := by
    obtain ⟨front, hfront⟩ := List.getLast?_eq_some_iff.mp hc
    have hlast := List.rdropWhile_last_not p (cs.dropWhile p)
    change ∀ h : strip p cs ≠ [], ¬p ((strip p cs).getLast h) at hlast
    simpa [hfront] using hlast

/-- The core is what stripping leaves. -/
theorem core_iff : Core (p ·) cs core ↔ core = strip p cs := by
  refine ⟨?_, fun h => h ▸ core_strip p cs⟩
  rintro ⟨⟨before, after, hcs, hbefore, hafter⟩, hhead, hlast⟩
  cases core with
  | nil =>
    have hall : ∀ c ∈ cs, p c := by
      intro c hc
      rw [hcs, List.append_nil, List.mem_append] at hc
      exact hc.elim (hbefore c) (hafter c)
    rw [strip, List.dropWhile_eq_nil_iff.mpr hall]
    rfl
  | cons c rest =>
    have hc : p c = false := by simpa using hhead c rfl
    have hkept : stripEnd p (c :: rest) = c :: rest :=
      List.rdropWhile_eq_self_iff.mpr fun h => hlast _ (List.getLast?_eq_some_getLast h)
    rw [strip, hcs, List.append_assoc, List.cons_append, dropWhile_append_cons hbefore hc,
      ← List.cons_append, stripEnd_append hafter, hkept]

theorem strip_eq_self (hhead : ∀ c ∈ cs.head?, p c = false)
    (hlast : ∀ c ∈ cs.getLast?, p c = false) : strip p cs = cs := by
  have hcore : Core (p ·) cs cs := ⟨⟨[], [], by simp⟩, by simpa using hhead, by simpa using hlast⟩
  exact (core_iff.mp hcore).symm

theorem getLast?_strip : ∀ c ∈ (strip p cs).getLast?, p c = false := by
  simpa using (core_strip p cs).last

theorem toList_trim (s : String) : (trim s).toList = strip isSpace s.toList := by
  simp [trim]

end

end SchemaShapes.Text
