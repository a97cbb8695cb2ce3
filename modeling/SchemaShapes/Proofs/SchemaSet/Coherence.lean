import Mathlib.Data.List.Nodup
import SchemaShapes.Proofs.File.Steps
import SchemaShapes.Proofs.Traversal
import SchemaShapes.SchemaSet.Resolver

/-! Coherent resolutions. Texts that are given by hand are resolved coherently as long as no two of
their locations are the same path, and so are locations of files in a tree: how a path is written
makes no difference for what is found. -/
namespace SchemaShapes

open File (Found Path Step Tree)

/-- A resolution reads one text at a place, and from one place a location leads to one other. -/
structure Coherent (resolve : Resolution) : Prop where
  text : ∀ base base' location location' found found', resolve base location = .ok found →
    resolve base' location' = .ok found' → found.location.same found'.location →
    found.text = found'.text
  place : ∀ base base' location found found', base.same base' →
    resolve (some base) location = .ok found → resolve (some base') location = .ok found' →
    found.location.same found'.location

/-! ### Given texts -/

theorem Resolver.mem_of_ofTexts {documents : List (String × String)} {base : Option Path}
    {location : String} {found : Found}
    (h : (Resolver.ofTexts documents).resolve base location = .ok found) :
    found.location = ⟨location⟩ ∧ (location, found.text) ∈ documents := by
  simp only [Resolver.ofTexts] at h
  split at h
  · next written text hd =>
    cases h
    obtain rfl : written = location := by simpa using List.find?_some hd
    exact ⟨rfl, List.mem_of_find?_eq_some hd⟩
  · cases h

theorem Resolver.coherent_ofTexts {documents : List (String × String)}
    (h : (documents.map fun d => Path.steps ⟨d.1⟩).Nodup) :
    Coherent (Resolver.ofTexts documents).resolve where
  text base base' location location' found found' hfound hfound' hsame := by
    obtain ⟨hplace, hmem⟩ := Resolver.mem_of_ofTexts hfound
    obtain ⟨hplace', hmem'⟩ := Resolver.mem_of_ofTexts hfound'
    rw [hplace, hplace', Path.same_iff] at hsame
    exact congrArg Prod.snd (List.inj_on_of_nodup_map h hmem hmem' hsame)
  place base base' location found found' _ hfound hfound' := by
    rw [(Resolver.mem_of_ofTexts hfound).1, (Resolver.mem_of_ofTexts hfound').1]
    exact Path.same_iff.mpr rfl

/-! ### Files -/

namespace File.Tree

/-- The names that a step leads to. -/
def move (names : List (List Char)) : Step → List (List Char)
  | .entry name => names ++ [name]
  | .up => names.dropLast
  | .root | .here => names

/-- A name that a part of a path can stand for. -/
def Proper (name : List Char) : Prop := '/' ∉ name ∧ Path.stepOf name = some (.entry name)

/-- Where parts lead is where their steps lead, if they lead anywhere. -/
theorem eq_of_follow {t : Tree} {parts names out : List (List Char)}
    (h : t.follow names parts = some out) :
    out = (parts.filterMap Path.stepOf).foldl move names := by
  fun_induction t.follow names parts with
  | case1 names => exact (Option.some.inj h).symm
  | case2 names part rest hfolder name hstep inner hinner ih =>
    rw [List.filterMap_cons_some hstep]
    exact ih h
  | case3 => cases h
  | case4 names part rest hfolder hstep ih =>
    rw [List.filterMap_cons_some hstep]
    exact ih h
  | case5 names part rest hfolder hentry hup ih =>
    cases hstep : Path.stepOf part with
    | none =>
      rw [List.filterMap_cons_none hstep]
      exact ih h
    | some s =>
      rw [List.filterMap_cons_some hstep]
      cases s with
      | entry name => exact absurd hstep (hentry name)
      | up => exact absurd hstep hup
      | root => exact ih h
      | here => exact ih h
  | case6 => cases h

theorem proper_of_follow {t : Tree} {parts names out : List (List Char)}
    (h : t.follow names parts = some out) (hparts : ∀ part ∈ parts, '/' ∉ part)
    (hnames : ∀ name ∈ names, Proper name) : ∀ name ∈ out, Proper name := by
  fun_induction t.follow names parts with
  | case1 names => exact Option.some.inj h ▸ hnames
  | case2 names part rest hfolder name hstep inner hinner ih =>
    obtain ⟨hpart, hrest⟩ := List.forall_mem_cons.mp hparts
    obtain rfl := Path.eq_of_stepOf_entry hstep
    refine ih h hrest fun other hother => ?_
    rcases List.mem_append.mp hother with hother | hother
    · exact hnames other hother
    · obtain rfl := List.mem_singleton.mp hother
      exact ⟨hpart, hstep⟩
  | case3 => cases h
  | case4 names part rest hfolder hstep ih =>
    obtain ⟨-, hrest⟩ := List.forall_mem_cons.mp hparts
    exact ih h hrest fun name hname => hnames name ((List.dropLast_subset _) hname)
  | case5 names part rest hfolder hentry hup ih =>
    obtain ⟨-, hrest⟩ := List.forall_mem_cons.mp hparts
    exact ih h hrest hnames
  | case6 => cases h

theorem exists_of_read {t : Tree} {p : Path} {found : Found} (h : t.read p = some found) :
    ∃ parts names, Path.head p.parts = (some .root, parts) ∧ t.follow [] parts = some names ∧
      found.location = locationOf names ∧
      t.files.find? (·.1 = names) = some (names, some found.text) := by
  unfold read at h
  split at h
  · next parts hhead =>
    obtain ⟨names, hnames, h⟩ := Option.bind_eq_some_iff.mp h
    obtain ⟨⟨file, text⟩, hfile, h⟩ := Option.bind_eq_some_iff.mp h
    obtain rfl : file = names := by simpa using List.find?_some hfile
    cases text with
    | none => cases h
    | some text =>
      cases h
      exact ⟨parts, file, hhead, hnames, rfl, hfile⟩
  · cases h

/-- A file is found at the names that the steps of the path lead to. -/
theorem location_of_read {t : Tree} {p : Path} {found : Found} (h : t.read p = some found) :
    found.location = locationOf (p.steps.foldl move []) := by
  obtain ⟨parts, names, hhead, hnames, hlocation, -⟩ := exists_of_read h
  have hsteps : p.steps = .root :: parts.filterMap Path.stepOf := by
    rw [Path.steps_eq, Path.stepsOf, hhead]
    rfl
  rw [hlocation, hsteps, eq_of_follow hnames]
  rfl

theorem steps_locationOf {names : List (List Char)} (h : ∀ name ∈ names, Proper name) :
    (locationOf names).steps = .root :: names.map .entry := by
  rw [locationOf, Path.steps_assemble (fun name hname => (h name hname).1) (.inl rfl)]
  have hentries : names.filterMap Path.stepOf = names.map .entry := by
    induction names with
    | nil => rfl
    | cons name names ih =>
      obtain ⟨hname, hnames⟩ := List.forall_mem_cons.mp h
      rw [List.filterMap_cons_some hname.2, ih hnames, List.map_cons]
  rw [hentries]
  rfl

/-- Files with the same place are read with the same text. -/
theorem text_of_read {t : Tree} {p q : Path} {found other : Found} (h : t.read p = some found)
    (h' : t.read q = some other) (hsame : found.location.same other.location) :
    found.text = other.text := by
  obtain ⟨parts, names, hparts, hnames, hlocation, hfile⟩ := exists_of_read h
  obtain ⟨parts', names', hparts', hnames', hlocation', hfile'⟩ := exists_of_read h'
  have hproper : ∀ name ∈ names, Proper name := by
    refine proper_of_follow hnames (fun part hpart => ?_) (by simp)
    exact Path.slashFree_head p part (by rwa [hparts])
  have hproper' : ∀ name ∈ names', Proper name := by
    refine proper_of_follow hnames' (fun part hpart => ?_) (by simp)
    exact Path.slashFree_head q part (by rwa [hparts'])
  rw [hlocation, hlocation', Path.same_iff, steps_locationOf hproper,
    steps_locationOf hproper'] at hsame
  obtain rfl : names = names' :=
    List.map_injective_iff.mpr (fun _ _ h => Step.entry.inj h) (List.cons.inj hsame).2
  exact Option.some.inj (Prod.mk.inj (Option.some.inj (hfile.symm.trans hfile'))).2

end File.Tree

/-- A location leads to one path, however the document that it is written in is located. -/
theorem Resolver.pathFrom_of_same {folder : Option Path} {base base' path path' : Path}
    {location : String} (hsame : base.same base')
    (h : pathFrom folder (some base) location = .ok path)
    (h' : pathFrom folder (some base') location = .ok path') : path.same path' := by
  obtain ⟨written, hwritten, h⟩ := exists_of_bind_eq_ok h
  obtain ⟨written', hwritten', h'⟩ := exists_of_bind_eq_ok h'
  obtain rfl : written = written' := Except.ok.inj (hwritten.symm.trans hwritten')
  by_cases habsolute : written.isAbsolute
  · rw [if_pos habsolute] at h h'
    cases h
    cases h'
    exact Path.same_iff.mpr rfl
  rw [if_neg habsolute] at h h'
  rcases Path.parent_of_same hsame with ⟨hp, hp'⟩ | ⟨own, other, hp, hp', hfolders⟩
  · rw [Option.bind_some, hp, Option.none_or] at h
    rw [Option.bind_some, hp', Option.none_or] at h'
    obtain rfl : path = path' := Except.ok.inj (h.symm.trans h')
    exact Path.same_iff.mpr rfl
  · rw [Option.bind_some, hp, Option.some_or] at h
    rw [Option.bind_some, hp', Option.some_or] at h'
    cases h
    cases h'
    exact Path.same_join hfolders written

theorem Resolver.exists_of_ofFiles {files : File.System} {folder base : Option Path}
    {location : String} {found : Found}
    (h : (Resolver.ofFiles files folder).resolve base location = .ok found) :
    ∃ path, pathFrom folder base location = .ok path ∧ files.read path = some found := by
  simp only [Resolver.ofFiles, findFile] at h
  split at h
  · cases h
  · next path hpath =>
    split at h
    · next hread =>
      cases h
      exact ⟨path, hpath, hread⟩
    · cases h

/-- Locations of files in a tree are resolved coherently. -/
theorem Resolver.coherent_ofFiles (t : Tree) (folder : Option Path) :
    Coherent (Resolver.ofFiles t.system folder).resolve where
  text base base' location location' found found' hfound hfound' hsame := by
    obtain ⟨path, -, hread⟩ := Resolver.exists_of_ofFiles hfound
    obtain ⟨path', -, hread'⟩ := Resolver.exists_of_ofFiles hfound'
    exact Tree.text_of_read hread hread' hsame
  place base base' location found found' hsame hfound hfound' := by
    obtain ⟨path, hpath, hread⟩ := Resolver.exists_of_ofFiles hfound
    obtain ⟨path', hpath', hread'⟩ := Resolver.exists_of_ofFiles hfound'
    have hpaths := Path.same_iff.mp (Resolver.pathFrom_of_same hsame hpath hpath')
    rw [Tree.location_of_read hread, Tree.location_of_read hread', hpaths]
    exact Path.same_iff.mpr rfl

end SchemaShapes
