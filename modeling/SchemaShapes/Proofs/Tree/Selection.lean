import Mathlib.Data.List.Sort
import SchemaShapes.Proofs.SchemaSet.Locality

/-! Selection of elements. The global elements whose names are as a selector asks stand in one list,
in the order of declaration, and this list decides what is selected. No two of them have a name in
common, however often it is declared, and in a compiled set no namespace is the empty text; so a
selector with a local name and a namespace is never ambiguous, and the full name of a global element
selects it. -/
namespace SchemaShapes

open Schema

/-- A proper name is in the namespace that a text stands for. -/
theorem QName.inNamespace_iff {q : QName} (hq : q.Proper) {ns : String} :
    q.inNamespace ns = true ↔ q.ns = if ns = "" then none else some ns := by
  obtain ⟨own, name⟩ := q
  have hown : own ≠ some "" := hq
  rw [inNamespace, beq_iff_eq]
  dsimp only
  cases own with
  | none =>
    rw [Option.getD_none]
    split_ifs with hns
    · simp [hns]
    · simpa using Ne.symm hns
  | some own =>
    rw [Option.getD_some]
    split_ifs with hns
    · simpa [hns] using hown
    · simp

namespace Tree.Selector

/-- A name has the local name and the namespace that a selector asks for, where it does ask for
them. The empty text asks for no namespace. -/
structure Asks (selector : Tree.Selector) (q : QName) : Prop where
  name : ∀ name, selector.name = some name → q.name = name
  ns : ∀ ns, selector.ns = some ns → q.ns = if ns = "" then none else some ns

variable {selector : Tree.Selector} {q r : QName}

/-- A selector accepts the proper names that are as it asks. -/
theorem accepts_iff (hq : q.Proper) : selector.accepts q = true ↔ selector.Asks q := by
  rw [accepts, Bool.and_eq_true, Option.all_eq_true, Option.all_eq_true]
  constructor
  · rintro ⟨hname, hns⟩
    exact ⟨fun name h => (of_decide_eq_true (hname name h)).symm,
      fun ns h => (QName.inNamespace_iff hq).mp (hns ns h)⟩
  · rintro ⟨hname, hns⟩
    exact ⟨fun name h => decide_eq_true (hname name h).symm,
      fun ns h => (QName.inNamespace_iff hq).mpr (hns ns h)⟩

/-- A selector with both parts asks for one name. -/
theorem Asks.eq (hname : selector.name.isSome) (hns : selector.ns.isSome)
    (hq : selector.Asks q) (hr : selector.Asks r) : q = r := by
  obtain ⟨name, hname⟩ := Option.isSome_iff_exists.mp hname
  obtain ⟨ns, hns⟩ := Option.isSome_iff_exists.mp hns
  have hlocal : q.name = r.name := (hq.name name hname).trans (hr.name name hname).symm
  have hspace : q.ns = r.ns := (hq.ns ns hns).trans (hr.ns ns hns).symm
  show QName.mk q.ns q.name = ⟨r.ns, r.name⟩
  rw [hlocal, hspace]

end Tree.Selector

namespace Catalog

variable {c : Catalog} {e e' : Located Element} {P : QName → Prop} {es es' : List (Located Element)}

/-- The first element is declared before the second one. -/
def Precedes (c : Catalog) (e e' : Located Element) : Prop :=
  ∃ p p', c.StandsAt Document.elements .element p e ∧
    c.StandsAt Document.elements .element p' e' ∧ p.Before p'

/-- A list has all global elements whose names are as wanted, in the order of declaration. An
element is global if its name means it. -/
structure Lists (c : Catalog) (P : QName → Prop) (es : List (Located Element)) : Prop where
  mem : ∀ e, e ∈ es ↔ c.findElement e.value.name = some e ∧ P e.value.name
  order : es.Pairwise c.Precedes

/-! ### The order of declaration -/

theorem eq_of_element_place {n m : ℕ} (h : Place.top (.element n) = .top (.element m)) : n = m := by
  simpa [Place.top] using h

theorem Precedes.exists_number (h : c.Precedes e e') :
    ∃ n m, e.place = .top (.element n) ∧ e'.place = .top (.element m) ∧ n < m := by
  obtain ⟨p, p', ⟨hp, hplace⟩, ⟨-, hplace'⟩, hlt⟩ := h
  exact ⟨_, _, hplace, hplace', number_lt_of_before hp hlt⟩

instance : Std.Irrefl c.Precedes where
  irrefl e h := by
    obtain ⟨n, m, hn, hm, hlt⟩ := h.exists_number
    have hsame := eq_of_element_place (hn.symm.trans hm)
    omega

instance : Std.Antisymm c.Precedes where
  antisymm e e' h h' := by
    obtain ⟨n, m, hn, hm, hlt⟩ := h.exists_number
    obtain ⟨m', n', hm', hn', hlt'⟩ := h'.exists_number
    have hfirst := eq_of_element_place (hn.symm.trans hn')
    have hsecond := eq_of_element_place (hm.symm.trans hm')
    omega

/-! ### The elements that are as asked -/

theorem lists_filter {b : QName → Bool}
    (h : ∀ e ∈ c.globalElements, b e.value.name = true ↔ P e.value.name) :
    c.Lists P (c.globalElements.filter (b ·.value.name)) where
  mem e := by
    rw [List.mem_filter, ← mem_globalElements_iff]
    exact and_congr_right (h e)
  order := pairwise_globalElements.filter _

/-- There is only one such list. -/
theorem Lists.eq (h : c.Lists P es) (h' : c.Lists P es') : es = es' :=
  h.order.eq_of_mem_iff h'.order fun e => (h.mem e).trans (h'.mem e).symm

theorem lists_globalElements : c.Lists (fun _ => True) c.globalElements := by
  have hall := lists_filter (c := c) (P := fun _ => True) (b := fun _ => true) (by simp)
  rwa [List.filter_true] at hall

/-- If names are proper, the elements that a selector accepts are those that are as it asks. -/
theorem lists_accepts (hproper : ∀ e ∈ c.elements, e.name.Proper) (selector : Tree.Selector) :
    c.Lists selector.Asks (c.globalElements.filter (selector.accepts ·.value.name)) := by
  refine lists_filter fun e he => Tree.Selector.accepts_iff (hproper _ ?_)
  exact (findElement_eq_some (mem_globalElements_iff.mp he)).1

/-- If one name at most is wanted, there is one global element at most. -/
theorem Lists.length_le_one (h : c.Lists P es) (hP : ∀ q r, P q → P r → q = r) :
    es.length ≤ 1 := by
  match es, h with
  | [], _ => exact Nat.zero_le 1
  | [_], _ => exact le_rfl
  | e :: e' :: rest, ⟨hmem, horder⟩ =>
    obtain ⟨hfound, he⟩ := (hmem e).mp (by simp)
    obtain ⟨hfound', he'⟩ := (hmem e').mp (by simp)
    have hprecedes : c.Precedes e e' := (List.pairwise_cons.mp horder).1 e' (by simp)
    -- Two elements with one name would be one that stands before itself.
    rw [hP _ _ he he', hfound', Option.some.injEq] at hfound
    exact absurd (hfound ▸ hprecedes) (Std.Irrefl.irrefl e)

/-! ### What is selected -/

variable {selector : Tree.Selector}

theorem select_of_nil (h : c.globalElements = []) : c.select selector = .error .noElements := by
  simp only [select, h]

theorem select_of_ne_nil (h : c.globalElements ≠ []) : c.select selector =
    match c.globalElements.filter (selector.accepts ·.value.name) with
    | [] => .error (.notFound selector (c.globalElements.map (·.value.name)))
    | [e] => .ok e
    | several => .error (.ambiguous (several.map (·.value.name))) := by
  rw [select]
  split
  · next hnil => exact absurd hnil h
  · rfl

theorem select_ne_ambiguous
    (h : (c.globalElements.filter (selector.accepts ·.value.name)).length ≤ 1)
    (names : List QName) : c.select selector ≠ .error (.ambiguous names) := by
  intro hselect
  by_cases hnil : c.globalElements = []
  · rw [select_of_nil hnil] at hselect
    cases hselect
  · rw [select_of_ne_nil hnil] at hselect
    generalize c.globalElements.filter _ = es at h hselect
    match es, h with
    | [], _ => cases hselect
    | [e], _ => cases hselect
    | _ :: _ :: _, h => simp at h

end Catalog

namespace SchemaSet

/-- What a selector selects in a compiled set is decided by the list of all global elements and the
list of those that are as it asks. It is an error if there are none at all, and otherwise the only
one that is as asked. If there is no such element, the error has the names of all elements, and if
there are several, it has theirs. There are never several if the selector has a local name and a
namespace, and the full name of every global element selects it. -/
theorem selection_exact (s : SchemaSet) (hs : s.Compiled) (selector : Tree.Selector) :
    (∃ all, s.Lists (fun _ => True) all) ∧ (∃ es, s.Lists selector.Asks es) ∧
    (∀ all es, s.Lists (fun _ => True) all → s.Lists selector.Asks es →
      (s.select selector = .error .noElements ↔ all = []) ∧
      (all ≠ [] →
        (∀ e, es = [e] → s.select selector = .ok e) ∧
        (es = [] → s.select selector = .error (.notFound selector (all.map (·.value.name)))) ∧
        (2 ≤ es.length → s.select selector = .error (.ambiguous (es.map (·.value.name))))) ∧
      (selector.name.isSome → selector.ns.isSome → es.length ≤ 1 ∧
        ∀ names, s.select selector ≠ .error (.ambiguous names))) ∧
    ∀ e, s.findElement e.value.name = some e → s.select (.ofName e.value.name) = .ok e := by
  have hproper := hs.proper
  have haccepts := Catalog.lists_accepts hproper selector
  have hglobal : s.Lists (fun _ => True) s.globalElements := Catalog.lists_globalElements
  refine ⟨⟨_, hglobal⟩, ⟨_, haccepts⟩, ?_, fun e he => Catalog.select_ofName hproper he⟩
  intro all es hall hes
  obtain rfl := hall.eq hglobal
  obtain rfl := hes.eq haccepts
  refine ⟨⟨?_, Catalog.select_of_nil⟩, fun h => ?_, fun hname hns => ?_⟩
  · intro hselect
    by_contra hne
    rw [Catalog.select_of_ne_nil hne] at hselect
    split at hselect <;> cases hselect
  · rw [Catalog.select_of_ne_nil h]
    refine ⟨fun e he => by rw [he], fun hnone => by rw [hnone], fun hseveral => ?_⟩
    split
    · next hnone => simp [hnone] at hseveral
    · next e he => simp [he] at hseveral
    · rfl
  · have hone := haccepts.length_le_one fun _ _ => Tree.Selector.Asks.eq hname hns
    exact ⟨hone, Catalog.select_ne_ambiguous hone⟩

/-- A lid and a box, and a lid again, in a namespace. -/
def lidText : String :=
  "<xs:schema xmlns:xs=\"http://www.w3.org/2001/XMLSchema\" targetNamespace=\"urn:a\">" ++
    "<xs:import schemaLocation=\"lid.xsd\"/><xs:element name=\"lid\" type=\"xs:int\"/>" ++
    "<xs:element name=\"box\" type=\"xs:int\"/><xs:element name=\"lid\" type=\"xs:string\"/>" ++
    "</xs:schema>"

/-- A lid in no namespace. -/
def lids : Resolver := .ofTexts [("lid.xsd",
  "<schema xmlns=\"http://www.w3.org/2001/XMLSchema\"><element name=\"lid\" type=\"date\"/>" ++
    "</schema>")]

/-- There is a lid in the namespace and one outside of it, and each is selected by its full name. -/
theorem selection_exact_lid : ∃ s, compile lidText lids = .ok s ∧ s.Compiled ∧
    s.select ⟨some "lid", none⟩ = .error (.ambiguous [⟨some "urn:a", "lid"⟩, ⟨none, "lid"⟩]) ∧
    (∃ e, s.findElement ⟨none, "lid"⟩ = some e ∧ s.select ⟨some "lid", some ""⟩ = .ok e) ∧
    ∀ names, s.select ⟨some "lid", some "urn:a"⟩ ≠ .error (.ambiguous names) := by
  have hset : (compile lidText lids).toOption.any fun s =>
      decide ((s.globalElements.filter
          ((Tree.Selector.mk (some "lid") none).accepts ·.value.name)).map (·.value.name) =
        [⟨some "urn:a", "lid"⟩, ⟨none, "lid"⟩] ∧ (s.findElement ⟨none, "lid"⟩).isSome) := by
    decide +kernel
  obtain ⟨s, hset, h⟩ := (Option.any_eq_true _ _).mp hset
  have hset := eq_ok_of_toOption hset
  have hs := compiled_of_compile hset
  obtain ⟨hnames, hfound⟩ := of_decide_eq_true h
  obtain ⟨e, he⟩ := Option.isSome_iff_exists.mp hfound
  obtain ⟨-, hname⟩ := Catalog.findElement_eq_some he
  obtain ⟨-, -, hlids, hown⟩ := selection_exact s hs ⟨some "lid", none⟩
  obtain ⟨-, hsome, -⟩ := hlids _ _ Catalog.lists_globalElements
    (Catalog.lists_accepts hs.proper _)
  have hlids : s.select ⟨some "lid", none⟩ =
      .error (.ambiguous [⟨some "urn:a", "lid"⟩, ⟨none, "lid"⟩]) := by
    have hmany : s.globalElements ≠ [] := by
      intro hnil
      simp [hnil] at hnames
    rw [← hnames]
    refine (hsome hmany).2.2 ?_
    rw [← List.length_map (·.value.name), hnames]
    rfl
  have hplain : s.select (.ofName ⟨none, "lid"⟩) = .ok e := by
    rw [← hname] at he ⊢
    exact hown e he
  obtain ⟨⟨all, hall⟩, ⟨es, hes⟩, hboth, -⟩ := selection_exact s hs ⟨some "lid", some "urn:a"⟩
  exact ⟨s, hset, hs, hlids, ⟨e, he, hplain⟩, ((hboth all es hall hes).2.2 rfl rfl).2⟩

end SchemaSet

end SchemaShapes
