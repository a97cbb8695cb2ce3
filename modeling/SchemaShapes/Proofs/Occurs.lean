import SchemaShapes.Occurs
import SchemaShapes.Proofs.Text.Blank
import SchemaShapes.Proofs.Text.Numeral

/-! Reading upper bounds. White space around it aside, the text of a bound is the word for no bound
or the numeral of a count that fits into 64 bits. All other texts are refused and kept as they were
given, and a bound is read back from the text that it is written as. -/
namespace SchemaShapes

open Text (Core Denotes Numeral core_iff core_self denotes_iff denotes_writeUInt64 isSpace
  isSpace_iff numeral_iff readUInt64 readUInt64_eq_none_iff readUInt64_eq_some_iff strip whiteSpace)

/-- What has nothing but white space around it is what is left when white space is stripped. -/
theorem core_whiteSpace_iff {cs core : List Char} :
    Core (· ∈ whiteSpace) cs core ↔ core = strip isSpace cs := by
  have hspace : (· ∈ whiteSpace) = (isSpace · = true) := funext fun _ => propext isSpace_iff.symm
  rw [hspace, core_iff]

namespace MaxOccurs

/-- The word for no bound. -/
def word : List Char := "unbounded".toList

theorem not_numeral_word (v : ℕ) : ¬Numeral word v := by
  rw [numeral_iff, denotes_iff]
  rintro ⟨⟨-, hdigits⟩, -⟩
  exact absurd hdigits (by decide)

/-- Reading is decided by the core of a text alone. -/
theorem parse_eq {s : String} {core : List Char} (h : Core (· ∈ whiteSpace) s.toList core) :
    parse s = if core = word then .ok .unbounded
      else match readUInt64 core with
        | some n => .ok (.bounded n)
        | none => .error (.invalidMaxOccurs s) := by
  rw [core_whiteSpace_iff.mp h]
  rfl

variable {s : String} {core : List Char}

theorem parse_eq_unbounded_iff (h : Core (· ∈ whiteSpace) s.toList core) :
    parse s = .ok .unbounded ↔ core = word := by
  rw [parse_eq h]
  split_ifs with hword
  · exact iff_of_true rfl hword
  · refine iff_of_false ?_ hword
    split <;> simp

theorem parse_eq_bounded_iff (h : Core (· ∈ whiteSpace) s.toList core) {n : UInt64} :
    parse s = .ok (.bounded n) ↔ Numeral core n.toNat := by
  rw [parse_eq h, ← readUInt64_eq_some_iff]
  split_ifs with hword
  · subst hword
    refine iff_of_false (by simp) ?_
    rw [readUInt64_eq_some_iff]
    exact not_numeral_word _
  · cases readUInt64 core <;> simp

theorem parse_eq_error_iff (h : Core (· ∈ whiteSpace) s.toList core) {e : OccursError} :
    parse s = .error e ↔
      e = .invalidMaxOccurs s ∧ core ≠ word ∧ ¬∃ v ≤ 2 ^ 64 - 1, Numeral core v := by
  rw [parse_eq h, ← readUInt64_eq_none_iff]
  split_ifs with hword
  · simp [hword]
  · cases readUInt64 core <;> simp [hword, eq_comm]

theorem core_word : Core (· ∈ whiteSpace) word word := by
  have hblack : word.all (· ∉ whiteSpace) := by decide
  exact core_self fun c hc => of_decide_eq_true (List.all_eq_true.mp hblack c hc)

/-- Digits are not white space. -/
theorem core_of_denotes {digits : List Char} {v : ℕ} (h : Denotes digits v) :
    Core (· ∈ whiteSpace) digits digits := by
  have hspace : whiteSpace.all (¬·.isDigit) := by decide
  refine core_self fun c hc hwhite => of_decide_eq_true (List.all_eq_true.mp hspace c hwhite) ?_
  exact List.all_eq_true.mp (denotes_iff.mp h).1.2 c hc

theorem parse_text (m : MaxOccurs) : parse m.text = .ok m := by
  cases m with
  | bounded n =>
    have hdenotes := denotes_writeUInt64 n
    exact (parse_eq_bounded_iff (core_of_denotes hdenotes)).mpr ⟨_, hdenotes, .inl rfl⟩
  | unbounded => exact (parse_eq_unbounded_iff core_word).mpr rfl

/-- Every text has one core without the white space around it, and the core decides what is read. It
is the word for no bound exactly if no bound is read, and a numeral of a count that fits into 64
bits exactly if this count is read. In all other cases, and only then, the text is refused, and the
error has it as it was given. Every bound is read back from its own text. -/
theorem parse_exact :
    (∀ s : String, ∃! core, Core (· ∈ whiteSpace) s.toList core) ∧
    (∀ (s : String) (core : List Char), Core (· ∈ whiteSpace) s.toList core →
      (parse s = .ok .unbounded ↔ core = "unbounded".toList) ∧
      (∀ n, parse s = .ok (.bounded n) ↔ ∃ v ≤ 2 ^ 64 - 1, Numeral core v ∧ n.toNat = v) ∧
      ∀ e, parse s = .error e ↔ e = .invalidMaxOccurs s ∧ core ≠ "unbounded".toList ∧
        ¬∃ v ≤ 2 ^ 64 - 1, Numeral core v) ∧
    ∀ m : MaxOccurs, parse m.text = .ok m := by
  refine ⟨fun s => ⟨_, core_whiteSpace_iff.mpr rfl, fun _ => core_whiteSpace_iff.mp⟩,
    fun s core h => ⟨parse_eq_unbounded_iff h, fun n => ?_, fun e => parse_eq_error_iff h⟩,
    parse_text⟩
  rw [parse_eq_bounded_iff h]
  constructor
  · intro hn
    exact ⟨n.toNat, Nat.le_pred_of_lt n.toNat_lt, hn, rfl⟩
  · rintro ⟨v, -, hv, rfl⟩
    exact hv

example : parse "\t+007 " = .ok (.bounded 7) := by decide

end MaxOccurs

end SchemaShapes
