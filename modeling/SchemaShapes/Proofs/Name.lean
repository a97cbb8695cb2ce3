import Mathlib.Data.List.Basic
import SchemaShapes.Name

/-! Written names. The written form tells names apart as long as no local name has a closing brace
in it, and it is never empty unless the local name is. -/
namespace SchemaShapes.QName

/-- The local name is not empty and has no closing brace in it, as it is with names in XML. -/
def Plain (q : QName) : Prop := q.name ≠ "" ∧ '\x7d' ∉ q.name.toList

instance (q : QName) : Decidable q.Plain := inferInstanceAs (Decidable (_ ∧ _))

/-- The local name has no closing brace in it, though it may be empty. -/
def Unbraced (q : QName) : Prop := '\x7d' ∉ q.name.toList

instance (q : QName) : Decidable q.Unbraced := inferInstanceAs (Decidable (_ ∉ _))

theorem toList_text_none (name : String) : (mk none name).text.toList = name.toList := rfl

theorem toList_text_some (ns name : String) :
    (mk (some ns) name).text.toList = '\x7b' :: (ns.toList ++ '\x7d' :: name.toList) := by
  simp [text]

theorem text_ne_empty {q : QName} (h : q.name ≠ "") : q.text ≠ "" := by
  obtain ⟨ns, name⟩ := q
  cases ns with
  | none => exact h
  | some ns =>
    intro htext
    have hlist := toList_text_some ns name
    rw [htext] at hlist
    cases hlist

/-- The last of the marks in a list cuts it in one way. -/
theorem append_cons_inj {α : Type} {mark : α} {xs ys xs' ys' : List α} (hy : mark ∉ ys)
    (hy' : mark ∉ ys') (h : xs ++ mark :: ys = xs' ++ mark :: ys') : xs = xs' ∧ ys = ys' := by
  rcases List.append_eq_append_iff.mp h with ⟨between, hxs, hys⟩ | ⟨between, hxs, hys⟩
  · cases between <;> simp_all
  · cases between <;> simp_all

theorem text_injective {q r : QName} (hq : q.Unbraced) (hr : r.Unbraced) (h : q.text = r.text) :
    q = r := by
  obtain ⟨ns, name⟩ := q
  obtain ⟨ns', name'⟩ := r
  have hq' : '\x7d' ∉ name.toList := hq
  have hr' : '\x7d' ∉ name'.toList := hr
  have hlist := congrArg String.toList h
  cases ns with
  | none =>
    cases ns' with
    | none => exact congrArg (mk none) h
    | some ns' =>
      -- The brace that ends the namespace would stand in the other name.
      rw [toList_text_none, toList_text_some] at hlist
      simp [hlist] at hq'
  | some ns =>
    cases ns' with
    | none =>
      rw [toList_text_none, toList_text_some] at hlist
      simp [← hlist] at hr'
    | some ns' =>
      rw [toList_text_some, toList_text_some] at hlist
      obtain ⟨hns, hname⟩ := append_cons_inj hq' hr' (List.cons.inj hlist).2
      rw [String.toList_inj.mp hns, String.toList_inj.mp hname]

/-- With a brace in it, a name can be written like one in a namespace. -/
example : (bare "\x7burn:a\x7dsize").text = (of (some "urn:a") "size").text := by
  decide +kernel

end SchemaShapes.QName
