import Mathlib.Algebra.GroupWithZero.Nat
import Mathlib.Data.List.Induction
import SchemaShapes.Proofs.Shape.WellFormed
import SchemaShapes.Shape.Outline
import SchemaShapes.Text.Split

/-! Outlines line by line. Where names and units have no line breaks, an outline that starts further
to the right has more spaces after its line breaks and is the same otherwise. So each member of a
record or a collection begins a line, two columns further in than the line of the shape it is a
member of, and a closing bracket stands alone on a line, below the beginning of the line with the
opening one. -/
namespace SchemaShapes

open Text (newLine split split_append split_of_notMem)

/-! ### Line breaks -/

namespace Text

def spaces (n : ℕ) : List Char := List.replicate n ' '

/-- A text with spaces inserted after each of its line breaks. -/
def indent (n : ℕ) (cs : List Char) : List Char :=
  cs.flatMap fun c => if c = '\n' then '\n' :: spaces n else [c]

theorem toList_newLine (n : ℕ) : (newLine n).toList = '\n' :: spaces n := by
  simp [newLine, spaces]

theorem notMem_spaces (n : ℕ) : '\n' ∉ spaces n := by
  simp [spaces]

theorem indent_append (n : ℕ) (cs ds : List Char) :
    indent n (cs ++ ds) = indent n cs ++ indent n ds :=
  List.flatMap_append

theorem indent_flatMap {α : Type} (n : ℕ) (f : α → List Char) (xs : List α) :
    indent n (xs.flatMap f) = xs.flatMap fun x => indent n (f x) :=
  List.flatMap_assoc

theorem indent_of_notMem {n : ℕ} {cs : List Char} (h : '\n' ∉ cs) : indent n cs = cs := by
  induction cs with
  | nil => rfl
  | cons c cs ih =>
    rw [List.mem_cons, not_or] at h
    rw [indent, List.flatMap_cons, if_neg (Ne.symm h.1), List.singleton_append]
    exact congrArg (c :: ·) (ih h.2)

/-- A line that starts at a column starts further to the right. -/
theorem indent_break (n m : ℕ) (cs : List Char) :
    indent n ('\n' :: (spaces m ++ cs)) = '\n' :: (spaces (m + n) ++ indent n cs) := by
  have hspaces : indent n (spaces m) = spaces m := indent_of_notMem (notMem_spaces m)
  have hsum : spaces n ++ spaces m = spaces (m + n) := by
    rw [spaces, spaces, spaces, List.replicate_append_replicate, Nat.add_comm]
  have hbreak : indent n ['\n'] = '\n' :: spaces n := by
    simp [indent]
  rw [← hsum, ← List.singleton_append, indent_append, indent_append, hspaces, hbreak,
    List.cons_append, List.append_assoc]

theorem count_indent (n : ℕ) (cs : List Char) : (indent n cs).count '\n' = cs.count '\n' := by
  induction cs with
  | nil => rfl
  | cons c cs ih =>
    rw [← List.singleton_append, indent_append, List.count_append, List.count_append, ih]
    by_cases hc : c = '\n'
    · simp [indent, hc, spaces, List.count_replicate]
    · rw [indent_of_notMem (by simpa using Ne.symm hc)]

theorem length_split (mark : Char) (cs : List Char) :
    (split mark cs).length = cs.count mark + 1 := by
  induction cs with
  | nil => rfl
  | cons c cs ih =>
    by_cases hc : c = mark
    · simp [split, hc, ih]
    · cases hs : split mark cs with
      | nil => exact absurd hs (Text.split_ne_nil mark cs)
      | cons part parts =>
        rw [hs] at ih
        simpa [split, hc, hs] using ih

theorem split_flatMap_cons (mark : Char) (cs : List Char) (parts : List (List Char)) :
    split mark (cs ++ parts.flatMap (mark :: ·)) =
      split mark cs ++ parts.flatMap (split mark) := by
  induction parts using List.reverseRecOn with
  | nil => simp
  | append_singleton parts part ih =>
    rw [List.flatMap_append, List.flatMap_singleton, ← List.append_assoc, split_append, ih,
      List.flatMap_append, List.flatMap_singleton, List.append_assoc]

end Text

/-! ### Members -/

/-- The name in a tag. -/
def BranchTag.name? : BranchTag → Option String
  | .record name => name
  | .collection => none

namespace Shape

open Text (count_indent indent indent_append indent_break indent_flatMap indent_of_notMem
  length_split notMem_spaces spaces split_flatMap_cons toList_newLine)

/-- The properties of a record or the branches of a collection, each as what stands before its
shape and the shape. -/
def members : Shape → List (String × Shape)
  | .record _ properties _ => properties.map fun p => (p.label, p.shape)
  | .collection branches => branches.map fun b => (b.label, b.shape)
  | _ => []

/-- What the outline of a shape begins with, before any member. -/
def opening : Shape → String
  | .top => "top"
  | .primitive kind measure optional =>
    kind.text ++ optionalMark optional ++
      (match measure with
        | some unit => "<" ++ unit ++ ">"
        | none => "")
  | .record name _ optional =>
    "record " ++ name.getD "<anonymous>" ++ optionalMark optional ++ " \x7b"
  | .collection _ => "collection ["

/-- The bracket that closes the outline of a shape with members. -/
def closing : Shape → Option String
  | .record .. => some "\x7d"
  | .collection _ => some "]"
  | _ => none

/-- The names and units that a shape has itself. -/
def words : Shape → List String
  | .top => []
  | .primitive _ measure _ => measure.toList
  | .record name properties _ => name.toList ++ properties.map Property.name
  | .collection branches => branches.filterMap (·.tag.name?)

/-- No name and no unit in a shape has a line break, at any depth. -/
def Unbroken (t : Shape) : Prop :=
  ∀ s : Shape, s.Inside t → ∀ w ∈ s.words, '\n' ∉ w.toList

theorem sizeOf_lt_of_mem_members {s : Shape} {m : String × Shape} (h : m ∈ s.members) :
    sizeOf m.2 < sizeOf s := by
  cases s with
  | top => cases h
  | primitive => cases h
  | record name properties optional =>
    obtain ⟨p, hp, rfl⟩ := List.mem_map.mp h
    have hlist := List.sizeOf_lt_of_mem hp
    cases p
    simp at hlist ⊢
    omega
  | collection branches =>
    obtain ⟨b, hb, rfl⟩ := List.mem_map.mp h
    have hlist := List.sizeOf_lt_of_mem hb
    cases b
    simp at hlist ⊢
    omega

/-- What holds of a shape if it holds of its members holds of all shapes. -/
theorem induction_members {P : Shape → Prop} (step : ∀ s : Shape, (∀ m ∈ s.members, P m.2) → P s)
    (s : Shape) : P s :=
  step s fun m _ => induction_members step m.2
termination_by sizeOf s
decreasing_by exact sizeOf_lt_of_mem_members ‹_›

theorem inside_iff {r s : Shape} : r.Inside s ↔ r = s ∨ ∃ m ∈ s.members, r.Inside m.2 := by
  constructor
  · rintro (_ | ⟨hp, h⟩ | ⟨hb, h⟩)
    · exact .inl rfl
    · exact .inr ⟨_, List.mem_map_of_mem hp, h⟩
    · exact .inr ⟨_, List.mem_map_of_mem hb, h⟩
  · rintro (rfl | ⟨m, hm, h⟩)
    · exact .here
    · cases s with
      | top => cases hm
      | primitive => cases hm
      | record name properties optional =>
        obtain ⟨p, hp, rfl⟩ := List.mem_map.mp hm
        exact .property hp h
      | collection branches =>
        obtain ⟨b, hb, rfl⟩ := List.mem_map.mp hm
        exact .branch hb h

theorem unbroken_iff {t : Shape} :
    t.Unbroken ↔ (∀ w ∈ t.words, '\n' ∉ w.toList) ∧ ∀ m ∈ t.members, m.2.Unbroken := by
  constructor
  · intro h
    exact ⟨h t .here, fun m hm s hs => h s (inside_iff.mpr (.inr ⟨m, hm, hs⟩))⟩
  · rintro ⟨hown, hmembers⟩ s hs
    rcases inside_iff.mp hs with rfl | ⟨m, hm, hs⟩
    · exact hown
    · exact hmembers m hm s hs

/-! ### Outlines of shapes with members -/

/-- What is written for a member on a new line that starts at a column. -/
def row (column : ℕ) (m : String × Shape) : List Char :=
  spaces column ++ (m.1.toList ++ (m.2.outlineAt column).toList)

theorem propertiesOutline_eq (column : ℕ) (properties : List Property) :
    (propertiesOutline column properties).toList = properties.flatMap fun p =>
      '\n' :: row column (p.label, p.shape) := by
  induction properties with
  | nil => rfl
  | cons p properties ih =>
    obtain ⟨name, shape⟩ := p
    rw [propertiesOutline, List.flatMap_cons, ← ih]
    simp [row, toList_newLine]

theorem branchesOutline_eq (column : ℕ) (branches : List Branch) :
    (branchesOutline column branches).toList = branches.flatMap fun b =>
      '\n' :: row column (b.label, b.shape) := by
  induction branches with
  | nil => rfl
  | cons b branches ih =>
    obtain ⟨tag, multiplicity, shape⟩ := b
    rw [branchesOutline, List.flatMap_cons, ← ih]
    simp [row, toList_newLine]

theorem outlineAt_of_closing_eq_none {s : Shape} (h : s.closing = none) (column : ℕ) :
    s.outlineAt column = s.opening := by
  cases s with
  | top => rfl
  | primitive => rfl
  | record => cases h
  | collection => cases h

theorem members_of_closing_eq_none {s : Shape} (h : s.closing = none) : s.members = [] := by
  cases s with
  | top => rfl
  | primitive => rfl
  | record => cases h
  | collection => cases h

/-- A shape with brackets has its members and the closing bracket on new lines. -/
theorem outlineAt_of_closing_eq_some {s : Shape} {bracket : String} (h : s.closing = some bracket)
    (column : ℕ) : (s.outlineAt column).toList = s.opening.toList ++
      (s.members.map (row (column + 2)) ++ [spaces column ++ bracket.toList]).flatMap
        ('\n' :: ·) := by
  rw [List.flatMap_append, List.flatMap_singleton, List.flatMap_map]
  cases s with
  | top => cases h
  | primitive => cases h
  | record name properties optional =>
    cases h
    rw [outlineAt, opening, members, List.flatMap_map]
    simp only [String.toList_append, propertiesOutline_eq, toList_newLine, List.append_assoc,
      List.cons_append]
  | collection branches =>
    cases h
    rw [outlineAt, opening, members, List.flatMap_map]
    simp only [String.toList_append, branchesOutline_eq, toList_newLine, List.append_assoc,
      List.cons_append]

/-! ### Labels and brackets without line breaks -/

theorem notMem_label {s : Shape} (h : s.Unbroken) {m : String × Shape} (hm : m ∈ s.members) :
    '\n' ∉ m.1.toList := by
  have hwords := (unbroken_iff.mp h).1
  cases s with
  | top => cases hm
  | primitive => cases hm
  | record name properties optional =>
    obtain ⟨p, hp, rfl⟩ := List.mem_map.mp hm
    have hname : '\n' ∉ p.name.toList :=
      hwords _ (List.mem_append_right _ (List.mem_map_of_mem hp))
    simp only [Property.label]
    split_ifs
    · decide
    · simpa using hname
  | collection branches =>
    obtain ⟨b, hb, rfl⟩ := List.mem_map.mp hm
    have hname : '\n' ∉ b.tag.niceName.toList := by
      cases htag : b.tag with
      | collection => decide
      | record name =>
        cases name with
        | none => decide
        | some name => exact hwords _ (List.mem_filterMap.mpr ⟨b, hb, by rw [htag]; rfl⟩)
    have hmultiplicity : '\n' ∉ b.multiplicity.text.toList := by
      cases b.multiplicity <;> decide
    simp [Branch.label, hname, hmultiplicity]

theorem notMem_optionalMark (optional : Bool) : '\n' ∉ (optionalMark optional).toList := by
  cases optional <;> decide

theorem notMem_opening {s : Shape} (h : s.Unbroken) : '\n' ∉ s.opening.toList := by
  have hwords := (unbroken_iff.mp h).1
  cases s with
  | top => decide
  | collection branches => simp [opening]
  | primitive kind measure optional =>
    have hkind : '\n' ∉ kind.text.toList := by
      cases kind <;> decide
    cases measure with
    | none => simp [opening, hkind, notMem_optionalMark]
    | some unit => simp [opening, hkind, notMem_optionalMark, hwords unit (by simp [words])]
  | record name properties optional =>
    have hname : '\n' ∉ (name.getD "<anonymous>").toList := by
      cases name with
      | none => decide
      | some name => exact hwords name (by simp [words])
    simp [opening, hname, notMem_optionalMark]

theorem notMem_closing {s : Shape} {bracket : String} (h : s.closing = some bracket) :
    '\n' ∉ bracket.toList := by
  cases s <;> cases h <;> decide

/-! ### Columns -/

/-- An outline that starts further to the right has more spaces after its line breaks. -/
theorem outlineAt_add (n : ℕ) (s : Shape) : ∀ column, s.Unbroken →
    (s.outlineAt (column + n)).toList = indent n (s.outlineAt column).toList := by
  induction s using induction_members with
  | step s ih =>
    intro column h
    have hopening := indent_of_notMem (n := n) (notMem_opening h)
    cases hclosing : s.closing with
    | none =>
      rw [outlineAt_of_closing_eq_none hclosing, outlineAt_of_closing_eq_none hclosing, hopening]
    | some bracket =>
      have hmember : ∀ m ∈ s.members, '\n' :: row (column + n + 2) m =
          indent n ('\n' :: row (column + 2) m) := by
        intro m hm
        have hlabel := indent_of_notMem (n := n) (notMem_label h hm)
        rw [row, row, indent_break, indent_append, hlabel,
          ← ih m hm (column + 2) ((unbroken_iff.mp h).2 m hm), Nat.add_right_comm]
      have hbracket := indent_of_notMem (n := n) (notMem_closing hclosing)
      rw [outlineAt_of_closing_eq_some hclosing, outlineAt_of_closing_eq_some hclosing,
        indent_append, hopening, List.flatMap_append, List.flatMap_append, indent_append,
        List.flatMap_singleton, List.flatMap_singleton, indent_break, hbracket, List.flatMap_map,
        List.flatMap_map, indent_flatMap, List.flatMap_congr hmember]

/-! ### Lines -/

/-- The lines of the outline of a shape. -/
def lines (s : Shape) : List (List Char) := split '\n' s.outline.toList

/-- The number of lines of the outline of a shape. -/
def height (s : Shape) : ℕ := s.lines.length

/-- The lines that are written for a member. -/
def rows (column : ℕ) (m : String × Shape) : List (List Char) := split '\n' (row column m)

theorem rows_zero (s : Shape) : rows 0 ("", s) = s.lines := rfl

section

variable {m : String × Shape} {bracket : String}

theorem length_rows (hlabel : '\n' ∉ m.1.toList) (h : m.2.Unbroken) (column : ℕ) :
    (rows column m).length = m.2.height := by
  have houtline := outlineAt_add column m.2 0 h
  rw [Nat.zero_add] at houtline
  rw [rows, height, lines, length_split, length_split, row, List.count_append, List.count_append,
    houtline, count_indent, List.count_eq_zero_of_not_mem (notMem_spaces column),
    List.count_eq_zero_of_not_mem hlabel, Nat.zero_add, Nat.zero_add]
  rfl

theorem notMem_first (hlabel : '\n' ∉ m.1.toList) (h : m.2.Unbroken) (column : ℕ) :
    '\n' ∉ spaces column ++ m.1.toList ++ m.2.opening.toList := by
  simp [hlabel, notMem_spaces, notMem_opening h]

theorem rows_of_closing_eq_none (hlabel : '\n' ∉ m.1.toList) (h : m.2.Unbroken)
    (hclosing : m.2.closing = none) (column : ℕ) :
    rows column m = [spaces column ++ m.1.toList ++ m.2.opening.toList] := by
  rw [rows, row, outlineAt_of_closing_eq_none hclosing, ← List.append_assoc]
  exact split_of_notMem (notMem_first hlabel h column)

theorem rows_of_closing_eq_some (hlabel : '\n' ∉ m.1.toList) (h : m.2.Unbroken)
    (hclosing : m.2.closing = some bracket) (column : ℕ) :
    rows column m = (spaces column ++ m.1.toList ++ m.2.opening.toList) ::
      (m.2.members.flatMap (rows (column + 2)) ++ [spaces column ++ bracket.toList]) := by
  have hlast : '\n' ∉ spaces column ++ bracket.toList := by
    simp [notMem_spaces, notMem_closing hclosing]
  rw [rows, row, outlineAt_of_closing_eq_some hclosing, ← List.append_assoc, ← List.append_assoc,
    split_flatMap_cons, split_of_notMem (notMem_first hlabel h column), List.flatMap_append,
    List.flatMap_singleton, split_of_notMem hlast, List.flatMap_map]
  rfl

end

theorem height_of_closing_eq_none {s : Shape} (h : s.Unbroken) (hclosing : s.closing = none) :
    s.height = 1 := by
  rw [height, ← rows_zero, rows_of_closing_eq_none (by simp) h hclosing]
  rfl

theorem height_of_closing_eq_some {s : Shape} {bracket : String} (h : s.Unbroken)
    (hclosing : s.closing = some bracket) :
    s.height = 2 + (s.members.map fun m => m.2.height).sum := by
  have hmembers : (s.members.map fun m => (rows 2 m).length) = s.members.map fun m => m.2.height :=
    List.map_congr_left fun m hm =>
      length_rows (notMem_label h hm) ((unbroken_iff.mp h).2 m hm) 2
  rw [height, ← rows_zero, rows_of_closing_eq_some (by simp) h hclosing, List.length_cons,
    List.length_append, List.length_flatMap, hmembers, List.length_singleton]
  omega

/-! ### Where members stand -/

/-- A shape, what stands before it, the number of the line that it begins on, and how many records
and collections it lies in. The members of a shape come below its first line, one after the
other. -/
inductive Stands (t : Shape) : ℕ → ℕ → String → Shape → Prop
  | whole : Stands t 0 0 "" t
  | member {line depth : ℕ} {label : String} {s : Shape} {before after : List (String × Shape)}
    {m : String × Shape} (h : Stands t line depth label s)
    (hm : s.members = before ++ m :: after) :
    Stands t (line + 1 + (before.map fun b => b.2.height).sum) (depth + 1) m.1 m.2

variable {t s : Shape} {line depth : ℕ} {label : String}

/-- The lines that are written for a shape stand in the outline of the whole, from its own line
on. -/
theorem Stands.exists_lines (h : t.Stands line depth label s) (ht : t.Unbroken) :
    s.Unbroken ∧ '\n' ∉ label.toList ∧ ∃ above below,
      t.lines = above ++ rows (2 * depth) (label, s) ++ below ∧ above.length = line := by
  induction h with
  | whole => exact ⟨ht, by simp, [], [], (List.append_nil _).symm, rfl⟩
  | @member line depth label s before after m h hm ih =>
    obtain ⟨hs, hlabel, above, below, hlines, rfl⟩ := ih
    have hmem : ∀ b ∈ before ++ m :: after, b.2.Unbroken ∧ '\n' ∉ b.1.toList := by
      rw [← hm]
      exact fun b hb => ⟨(unbroken_iff.mp hs).2 b hb, notMem_label hs hb⟩
    obtain ⟨hown, hlabel'⟩ := hmem m (by simp)
    refine ⟨hown, hlabel', ?_⟩
    cases hclosing : s.closing with
    | none => simp [members_of_closing_eq_none hclosing] at hm
    | some bracket =>
      rw [rows_of_closing_eq_some hlabel hs hclosing, hm, List.flatMap_append,
        List.flatMap_cons] at hlines
      refine ⟨above ++ (spaces (2 * depth) ++ label.toList ++ s.opening.toList) ::
          before.flatMap (rows (2 * depth + 2)),
        after.flatMap (rows (2 * depth + 2)) ++ [spaces (2 * depth) ++ bracket.toList] ++ below,
        ?_, ?_⟩
      · rw [hlines]
        simp [Nat.mul_add]
      · have hbefore : (before.map fun b => (rows (2 * depth + 2) b).length) =
            before.map fun b => b.2.height := by
          refine List.map_congr_left fun b hb => ?_
          obtain ⟨hunbroken, hlabel⟩ := hmem b (List.mem_append_left _ hb)
          exact length_rows hlabel hunbroken _
        rw [List.length_append, List.length_cons, List.length_flatMap, hbefore]
        omega

/-- The line of a shape begins with two columns for each record and collection that it lies in, and
goes on with what stands before the shape. -/
theorem Stands.line_eq (h : t.Stands line depth label s) (ht : t.Unbroken) :
    t.lines[line]? = some (spaces (2 * depth) ++ label.toList ++ s.opening.toList) := by
  obtain ⟨hs, hlabel, above, below, hlines, rfl⟩ := h.exists_lines ht
  rw [hlines, List.append_assoc, List.getElem?_append_right (Nat.le_refl _), Nat.sub_self]
  cases hclosing : s.closing with
  | none => rw [rows_of_closing_eq_none hlabel hs hclosing]; rfl
  | some bracket => rw [rows_of_closing_eq_some hlabel hs hclosing]; rfl

/-- The last line of a shape with brackets has nothing but the closing one, below the column in
which its first line begins. -/
theorem Stands.closing_eq {bracket : String} (h : t.Stands line depth label s) (ht : t.Unbroken)
    (hclosing : s.closing = some bracket) :
    t.lines[line + s.height - 1]? = some (spaces (2 * depth) ++ bracket.toList) := by
  obtain ⟨hs, hlabel, above, below, hlines, rfl⟩ := h.exists_lines ht
  have hlength : (rows (2 * depth) (label, s)).length = s.height := length_rows hlabel hs _
  rw [rows_of_closing_eq_some hlabel hs hclosing] at hlines hlength
  generalize (label, s).2.members.flatMap (rows (2 * depth + 2)) = inner at hlines hlength
  rw [List.length_cons, List.length_append, List.length_singleton] at hlength
  have hsplit : t.lines =
      (above ++ (spaces (2 * depth) ++ label.toList ++ s.opening.toList) :: inner) ++
        (spaces (2 * depth) ++ bracket.toList) :: below := by
    rw [hlines]
    simp
  have hindex : above.length + s.height - 1 =
      (above ++ (spaces (2 * depth) ++ label.toList ++ s.opening.toList) :: inner).length := by
    rw [List.length_append, List.length_cons]
    omega
  rw [hsplit, hindex, List.getElem?_append_right (Nat.le_refl _), Nat.sub_self]
  rfl

/-- A book, whose number of pages may be unknown. -/
def book : Shape := .record (some "book") [.body (.plain .int32 true)] false

/-- Any number of books. -/
def books : Shape := .collection [⟨.record (some "book"), .multiple, book⟩]

/-- A shelf of books, and how wide it is. -/
def shelf : Shape :=
  .record (some "shelf") [.body books, ⟨"width", .primitive .decimal (some "cm") false⟩] false

theorem unbroken_shelf : shelf.Unbroken := by
  have hpages : (plain .int32 true).Unbroken :=
    unbroken_iff.mpr ⟨by decide, by simp [members, plain]⟩
  have hwidth : (primitive .decimal (some "cm") false).Unbroken :=
    unbroken_iff.mpr ⟨by decide, by simp [members]⟩
  have hbook : book.Unbroken :=
    unbroken_iff.mpr ⟨by decide, by simpa [members, book, Property.body] using hpages⟩
  have hbooks : books.Unbroken :=
    unbroken_iff.mpr ⟨by decide, by simpa [members, books] using hbook⟩
  refine unbroken_iff.mpr ⟨by decide, ?_⟩
  simpa [members, shelf, Property.body] using And.intro hbooks hwidth

end Shape

end SchemaShapes
