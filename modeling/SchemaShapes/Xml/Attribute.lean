import SchemaShapes.Text.Blank
import SchemaShapes.Text.Cut
import SchemaShapes.Xml.Error

/-! Attributes of a tag: keys with quoted values, in the order in which they are written. Keys
and values are kept as they are written, references included. -/
namespace SchemaShapes.Xml

open Text (cutAt isBlank length_dropWhile_le length_of_cutAt)

structure Attribute where
  key : List Char
  value : List Char
  deriving DecidableEq

/-- Whether a character may go on a key. -/
def inKey (c : Char) : Bool := c != '=' && !isBlank c

/-- A quoted value at the start of a text, and what follows it. -/
def readQuoted : List Char → Option (List Char × List Char)
  | '"' :: cs => cutAt ['"'] cs
  | '\'' :: cs => cutAt ['\''] cs
  | _ => none

/-- The attribute at the start of a text that does not begin with white space, and what follows
it. A key has at least one character, and that may be any. -/
def readAttribute : List Char → Option (Attribute × List Char)
  | [] => none
  | c :: cs =>
    match (cs.dropWhile inKey).dropWhile isBlank with
    | '=' :: rest =>
      (readQuoted (rest.dropWhile isBlank)).map fun (value, rest) =>
        (⟨c :: cs.takeWhile inKey, value⟩, rest)
    | _ => none

theorem length_of_readQuoted {cs value rest : List Char} (h : readQuoted cs = some (value, rest)) :
    rest.length < cs.length := by
  unfold readQuoted at h
  split at h
  · have := length_of_cutAt h; simp at this ⊢; omega
  · have := length_of_cutAt h; simp at this ⊢; omega
  · simp at h

theorem length_of_readAttribute {cs rest : List Char} {a : Attribute}
    (h : readAttribute cs = some (a, rest)) : rest.length < cs.length := by
  unfold readAttribute at h
  split at h
  · simp at h
  · rename_i c cs
    split at h
    · rename_i rest' heq
      obtain ⟨⟨value, rest''⟩, hq, hr⟩ := Option.map_eq_some_iff.1 h
      simp only [Prod.mk.injEq] at hr
      obtain ⟨-, rfl⟩ := hr
      have h1 := length_of_readQuoted hq
      have h2 := length_dropWhile_le isBlank rest'
      have h3 := length_dropWhile_le isBlank (cs.dropWhile inKey)
      have h4 := length_dropWhile_le inKey cs
      rw [heq] at h3
      simp only [List.length_cons] at h3 ⊢
      omega
    · simp at h

/-- All attributes of the inside of a tag, repeated keys included. -/
def readAttributeList (cs : List Char) : Option (List Attribute) :=
  match _hc : cs.dropWhile isBlank with
  | [] => some []
  | c :: rest =>
    match _h : readAttribute (c :: rest) with
    | none => none
    | some (a, rest') => (readAttributeList rest').map (a :: ·)
termination_by cs.length
decreasing_by
  have h1 := length_of_readAttribute _h
  have h2 := length_dropWhile_le isBlank cs
  rw [_hc] at h2
  omega

/-- The attributes of the inside of a tag. No key may be given twice. -/
def readAttributes (cs : List Char) : Except Error (List Attribute) :=
  match readAttributeList cs with
  | none => .error .invalidAttribute
  | some attributes =>
    if (attributes.map Attribute.key).Nodup then .ok attributes else .error .repeatedAttribute

/-- An attribute as it is written, after a space and between double quotes. -/
def Attribute.render (a : Attribute) : List Char :=
  ' ' :: a.key ++ ['=', '"'] ++ a.value ++ ['"']

end SchemaShapes.Xml
