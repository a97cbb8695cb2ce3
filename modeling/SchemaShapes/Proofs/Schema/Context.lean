import Mathlib.Data.List.Basic
import SchemaShapes.Proofs.Text.Blank
import SchemaShapes.Proofs.Text.Cut
import SchemaShapes.Schema.Context

/-! Names in braces. A reference whose namespace stands in braces is resolved without a look at the
document that it is written in; the namespace is what comes before the first closing brace. -/
namespace SchemaShapes.Schema.Context

open Text (cutAt cutAt_of_notMem isSpace notMem_of_cutAt strip strip_eq_self)

variable {ctx : Context} {body ns base : List Char}

/-- A text that begins with a brace is cut at the first brace that closes. -/
theorem resolve_brace (hne : body ≠ []) (hlast : ∀ c ∈ body.getLast?, isSpace c = false) :
    ctx.resolve (String.ofList ('\x7b' :: body)) =
      match cutAt ['\x7d'] body with
      | none => .error (.invalidName (String.ofList ('\x7b' :: body)))
      | some (ns, base) =>
        if base = [] ∨ ':' ∈ base then .error (.invalidName (String.ofList ('\x7b' :: body)))
        else .ok (.of (some (String.ofList ns)) (String.ofList base)) := by
  have hstrip : strip isSpace ('\x7b' :: body) = '\x7b' :: body := by
    refine strip_eq_self (by simp [isSpace]) ?_
    rwa [List.getLast?_cons_of_ne_nil hne]
  have htrim : Text.trim (String.ofList ('\x7b' :: body)) = String.ofList ('\x7b' :: body) := by
    rw [Text.trim, String.toList_ofList, hstrip]
  rw [resolve, htrim]
  generalize hcs : (String.ofList ('\x7b' :: body)).toList = cs
  obtain rfl : '\x7b' :: body = cs := String.toList_ofList.symm.trans hcs
  rfl

theorem resolve_braced (hns : '\x7d' ∉ ns) (hbase : base ≠ []) (hcolon : ':' ∉ base)
    (hlast : ∀ c ∈ base.getLast?, isSpace c = false) :
    ctx.resolve (String.ofList ('\x7b' :: (ns ++ '\x7d' :: base))) =
      .ok (.of (some (String.ofList ns)) (String.ofList base)) := by
  rw [resolve_brace (by simp), cutAt_of_notMem hns]
  · simp [hbase, hcolon]
  · rwa [List.getLast?_append_of_ne_nil _ (List.cons_ne_nil _ _),
      List.getLast?_cons_of_ne_nil hbase]

end SchemaShapes.Schema.Context
