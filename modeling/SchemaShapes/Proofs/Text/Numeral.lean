import Mathlib.Algebra.GroupWithZero.Nat
import Mathlib.Data.List.Induction
import SchemaShapes.Text.Numeral

/-! Numerals and the numbers that they denote. Reading accepts exactly the numerals of the counts
that fit into 64 bits, and gives these counts; what a count is written as denotes it. -/
namespace SchemaShapes.Text

def decimalDigits : List Char := ['0', '1', '2', '3', '4', '5', '6', '7', '8', '9']

/-- One or more decimal digits denote a number. There may be zeros in front. -/
inductive Denotes : List Char → ℕ → Prop
  | one {c : Char} {d : ℕ} (hc : decimalDigits[d]? = some c) : Denotes [c] d
  | more {cs : List Char} {c : Char} {n d : ℕ} (h : Denotes cs n)
    (hc : decimalDigits[d]? = some c) : Denotes (cs ++ [c]) (10 * n + d)

/-- A numeral of a number: digits that denote it, with a plus sign before them or not. -/
def Numeral (cs : List Char) (n : ℕ) : Prop :=
  ∃ digits, Denotes digits n ∧ (cs = digits ∨ cs = '+' :: digits)

/-! ### Digits -/

theorem decimalDigits_eq_some_iff {c : Char} {d : ℕ} :
    decimalDigits[d]? = some c ↔ c.isDigit ∧ c.toNat - '0'.toNat = d := by
  constructor
  · intro h
    have hall : ∀ p ∈ decimalDigits.zipIdx, p.1.isDigit ∧ p.1.toNat - '0'.toNat = p.2 := by decide
    exact hall (c, d) (List.mk_mem_zipIdx_iff_getElem?.mpr h)
  · rintro ⟨hdigit, rfl⟩
    obtain ⟨hlow, hhigh⟩ := Char.isDigit_iff_toNat.mp hdigit
    have hall : ∀ d < 10, decimalDigits[d]? = some (Char.ofNat ('0'.toNat + d)) := by decide
    have hd : '0'.toNat + (c.toNat - '0'.toNat) = c.toNat := Nat.add_sub_of_le hlow
    have hlt : c.toNat - '0'.toNat < 10 :=
      Nat.sub_lt_left_of_lt_add hlow (Nat.lt_succ_of_le hhigh)
    have hfound := hall _ hlt
    rwa [hd, Char.ofNat_toNat] at hfound

theorem ofDigitChars_concat (cs : List Char) (c : Char) :
    Nat.ofDigitChars 10 (cs ++ [c]) 0 =
      10 * Nat.ofDigitChars 10 cs 0 + (c.toNat - '0'.toNat) := by
  simp [Nat.ofDigitChars]

theorem ofDigitChars_singleton (c : Char) :
    Nat.ofDigitChars 10 [c] 0 = c.toNat - '0'.toNat := by
  simp [Nat.ofDigitChars]

theorem denotes_iff {cs : List Char} {n : ℕ} :
    Denotes cs n ↔ (cs ≠ [] ∧ cs.all Char.isDigit) ∧ Nat.ofDigitChars 10 cs 0 = n := by
  constructor
  · intro h
    induction h with
    | one hc =>
      obtain ⟨hdigit, rfl⟩ := decimalDigits_eq_some_iff.mp hc
      exact ⟨⟨by simp, by simpa using hdigit⟩, ofDigitChars_singleton _⟩
    | more _ hc ih =>
      obtain ⟨hdigit, rfl⟩ := decimalDigits_eq_some_iff.mp hc
      obtain ⟨⟨-, hall⟩, rfl⟩ := ih
      exact ⟨⟨by simp, by rw [List.all_append, hall]; simpa using hdigit⟩, ofDigitChars_concat _ _⟩
  · rintro ⟨⟨hne, hall⟩, rfl⟩
    induction cs using List.reverseRecOn with
    | nil => exact absurd rfl hne
    | append_singleton cs c ih =>
      rw [List.all_append, Bool.and_eq_true] at hall
      have hc := decimalDigits_eq_some_iff.mpr ⟨by simpa using hall.2, rfl⟩
      by_cases hcs : cs = []
      · subst hcs
        rw [List.nil_append, ofDigitChars_singleton]
        exact .one hc
      · rw [ofDigitChars_concat]
        exact .more (ih hcs hall.1) hc

theorem notMem_of_denotes {cs : List Char} {n : ℕ} (h : Denotes cs n) : '+' ∉ cs := by
  intro hplus
  have hall := List.all_eq_true.mp (denotes_iff.mp h).1.2
  cases hall '+' hplus

/-! ### Reading and writing -/

theorem numeral_iff {cs : List Char} {n : ℕ} : Numeral cs n ↔ Denotes (unsigned cs) n := by
  constructor
  · rintro ⟨digits, h, rfl | rfl⟩
    · have hsame : unsigned cs = cs := by
        unfold unsigned
        split
        · exact absurd List.mem_cons_self (notMem_of_denotes h)
        · rfl
      rwa [hsame]
    · exact h
  · intro h
    unfold unsigned at h
    split at h
    · exact ⟨_, h, .inr rfl⟩
    · exact ⟨_, h, .inl rfl⟩

theorem readUInt64_eq_some_iff {cs : List Char} {n : UInt64} :
    readUInt64 cs = some n ↔ Numeral cs n.toNat := by
  rw [numeral_iff, denotes_iff, readUInt64]
  split_ifs with hdigits
  · generalize hv : Nat.ofDigitChars 10 (unsigned cs) 0 = v
    dsimp only
    split_ifs with hsize
    · rw [Option.some.injEq, and_iff_right hdigits, ← UInt64.toNat_inj, UInt64.toNat_ofNatLT]
    · have hlarge : v ≠ n.toNat := fun h => hsize (h ▸ n.toNat_lt_size)
      simp [hlarge]
  · exact iff_of_false id fun h => hdigits h.1

/-- What is not read is no numeral of a count that fits. -/
theorem readUInt64_eq_none_iff {cs : List Char} :
    readUInt64 cs = none ↔ ¬∃ v ≤ 2 ^ 64 - 1, Numeral cs v := by
  rw [Option.eq_none_iff_forall_ne_some]
  constructor
  · rintro h ⟨v, hv, hnumeral⟩
    have hsize : v < UInt64.size := Nat.lt_of_le_pred (by decide) hv
    refine h (UInt64.ofNatLT v hsize) (readUInt64_eq_some_iff.mpr ?_)
    rwa [UInt64.toNat_ofNatLT]
  · intro h n hn
    exact h ⟨n.toNat, Nat.le_pred_of_lt n.toNat_lt, readUInt64_eq_some_iff.mp hn⟩

theorem denotes_writeUInt64 (n : UInt64) : Denotes (writeUInt64 n).toList n.toNat := by
  have hwritten : (writeUInt64 n).toList = Nat.toDigits 10 n.toNat := by
    rw [writeUInt64, Nat.toString_eq_repr, Nat.repr_eq_ofList_toDigits, String.toList_ofList]
  rw [hwritten]
  refine denotes_iff.mpr ⟨⟨Nat.toDigits_ne_nil, ?_⟩, Nat.ofDigitChars_ten_toDigits⟩
  exact List.all_eq_true.mpr fun c hc => Nat.isDigit_of_mem_toDigits (by decide) (by decide) hc

end SchemaShapes.Text
