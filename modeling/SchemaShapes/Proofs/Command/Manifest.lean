import SchemaShapes.Command.Basic
import SchemaShapes.Proofs.Traversal

/-! Manifests and single commands. A manifest shows the shape of each entry as the command for that
entry alone does, and where such a command fails for the first time, it fails in the same way. -/
namespace SchemaShapes

open File (Path)

/-- A path as it is seen from the folder of a file. -/
def File.Path.seenFrom (file p : Path) : Path :=
  match file.parent with
  | some dir => dir.join p
  | none => p

namespace ManifestEntry

/-- What an entry asks for, if its paths are taken as they are. -/
def input (e : ManifestEntry) : SchemaInput := ⟨e.file, e.folder, e.selector⟩

/-- What an entry of a manifest file asks for. -/
def alone (manifest : Path) (e : ManifestEntry) : SchemaInput :=
  ⟨manifest.seenFrom e.file, e.folder.map manifest.seenFrom, ⟨e.element, e.ns⟩⟩

/-- An entry of a manifest file with its paths as they are seen from there. -/
def seenFrom (manifest : Path) (e : ManifestEntry) : ManifestEntry :=
  { e with file := manifest.seenFrom e.file, folder := e.folder.map manifest.seenFrom }

theorem input_seenFrom (manifest : Path) (e : ManifestEntry) :
    (e.seenFrom manifest).input = e.alone manifest := rfl

theorem seenFrom_eq (manifest : Path) (e : ManifestEntry) :
    e.seenFrom manifest =
      match manifest.parent with
      | some dir => e.relativeTo dir
      | none => e := by
  unfold seenFrom File.Path.seenFrom
  cases manifest.parent with
  | none => simp only [Option.map_id']
  | some dir => rfl

/-- What a manifest shows of an entry: the outline below the path of the schema file. -/
def shown (files : File.System) (e : ManifestEntry) : Outcome String := do
  let set ← loadSet files e.file e.folder
  let shape ← (set.infer e.selector).mapError .tree
  return e.file.text ++ ":\n" ++ shape.outline

end ManifestEntry

variable {files : File.System} {e : ManifestEntry} {file : Path}

/-! ### One entry -/

/-- The command for an entry alone fails as the entry does, or both show one outline. -/
theorem shown_cases (files : File.System) (e : ManifestEntry) :
    (∃ error, e.shown files = .error error ∧ (Command.infer e.input).run files = .error error) ∨
    ∃ text, e.shown files = .ok (e.file.text ++ ":\n" ++ text) ∧
      (Command.infer e.input).run files = .ok [text] := by
  rw [ManifestEntry.shown, Command.run, ManifestEntry.input]
  dsimp only
  cases loadSet files e.file e.folder with
  | error error => exact .inl ⟨error, rfl, rfl⟩
  | ok set =>
    dsimp only [bind, Except.bind]
    cases set.infer e.selector with
    | error error => exact .inl ⟨.tree error, rfl, rfl⟩
    | ok shape => exact .inr ⟨shape.outline, rfl, rfl⟩

theorem shown_eq_ok_iff {text : String} : e.shown files = .ok text ↔
    ∃ single, (Command.infer e.input).run files = .ok [single] ∧
      text = e.file.text ++ ":\n" ++ single := by
  rcases shown_cases files e with ⟨error, hshown, hrun⟩ | ⟨single, hshown, hrun⟩
  · simp [hshown, hrun]
  · simp [hshown, hrun, eq_comm]

theorem shown_eq_error_iff {error : CommandError} :
    e.shown files = .error error ↔ (Command.infer e.input).run files = .error error := by
  rcases shown_cases files e with ⟨_, hshown, hrun⟩ | ⟨_, hshown, hrun⟩ <;> simp [hshown, hrun]

theorem exists_shown_iff : (∃ text, e.shown files = .ok text) ↔
    ∃ texts, (Command.infer e.input).run files = .ok texts := by
  rcases shown_cases files e with ⟨_, hshown, hrun⟩ | ⟨_, hshown, hrun⟩ <;> simp [hshown, hrun]

/-! ### All entries -/

theorem readManifest_eq {found : File.Found} {entries : List ManifestEntry}
    (hread : files.read file = some found) (hparse : Manifest.parse found.text = some entries) :
    readManifest files file = .ok (entries.map (·.seenFrom file)) := by
  rw [readManifest, hread]
  dsimp only
  rw [hparse]
  simp only [ManifestEntry.seenFrom_eq]
  cases file.parent with
  | none => simp only [List.map_id']
  | some dir => rfl

/-- A manifest that can be read is a traversal of its entries, each as it is seen from there. -/
theorem run_manifest {found : File.Found} {entries : List ManifestEntry}
    (hread : files.read file = some found) (hparse : Manifest.parse found.text = some entries) :
    (Command.manifest file).run files = entries.mapM fun e => (e.seenFrom file).shown files := by
  calc (Command.manifest file).run files
      = (entries.map (·.seenFrom file)).mapM (·.shown files) := by
        rw [Command.run, readManifest_eq hread hparse]
        rfl
    _ = entries.mapM fun e => (e.seenFrom file).shown files := by
        rw [List.mapM_map]
        rfl

/-- A manifest that can be read asks what its entries ask alone. It has texts if each entry alone
has one, and these are the texts below the paths of the files; otherwise it fails as the first entry
does that fails alone. -/
theorem manifest_asSingles {found : File.Found} {entries : List ManifestEntry}
    (hread : files.read file = some found) (hparse : Manifest.parse found.text = some entries) :
    let batch := (Command.manifest file).run files
    let alone (e : ManifestEntry) := (Command.infer (e.alone file)).run files
    ((∃ texts, batch = .ok texts) ↔ ∀ e ∈ entries, ∃ texts, alone e = .ok texts) ∧
    (∀ texts, batch = .ok texts → texts.length = entries.length ∧
      ∀ (i : Nat) (e : ManifestEntry), entries[i]? = some e → ∃ text, alone e = .ok [text] ∧
        texts[i]? = some ((file.seenFrom e.file).text ++ ":\n" ++ text)) ∧
    ∀ error, batch = .error error ↔ ∃ before e after, entries = before ++ e :: after ∧
      (∀ e' ∈ before, ∃ texts, alone e' = .ok texts) ∧ alone e = .error error := by
  intro batch alone
  have hbatch : batch = entries.mapM fun e => (e.seenFrom file).shown files :=
    run_manifest hread hparse
  simp only [hbatch, mapM_eq_error_iff, exists_shown_iff, shown_eq_error_iff,
    ManifestEntry.input_seenFrom]
  refine ⟨⟨fun ⟨texts, h⟩ e he => ?_, fun h => ?_⟩, fun texts h => ?_, fun error => Iff.rfl⟩
  · obtain ⟨text, -, htext⟩ := exists_of_mem_left (forall₂_of_mapM h) he
    exact exists_shown_iff.mp ⟨text, htext⟩
  · -- every entry has a text, so that no entry is the first to fail
    cases htexts : entries.mapM fun e => (e.seenFrom file).shown files with
    | ok texts => exact ⟨texts, rfl⟩
    | error error =>
      obtain ⟨before, e, after, rfl, -, he⟩ := mapM_eq_error_iff.mp htexts
      obtain ⟨texts, htexts⟩ := h e (by simp)
      cases (shown_eq_error_iff.mp he).symm.trans htexts
  · have htexts := forall₂_of_mapM h
    refine ⟨htexts.length_eq.symm, fun i e hi => ?_⟩
    obtain ⟨hlt, rfl⟩ := List.getElem?_eq_some_iff.mp hi
    have hlt' : i < texts.length := htexts.length_eq ▸ hlt
    obtain ⟨text, htext, heq⟩ := shown_eq_ok_iff.mp (htexts.get hlt hlt')
    exact ⟨text, htext, List.getElem?_eq_some_iff.mpr ⟨hlt', heq⟩⟩

/-- A manifest that asks for a jar in two ways. -/
def jars : String :=
  "schemas = [\x7bfile = \"jar.xsd\", element = \"jar\"\x7d, \x7bfile = \"/pantry/jar.xsd\"\x7d]"

/-- A manifest that asks for a jar and for what is not there. -/
def jarAndLid : String := "schemas = [\x7bfile = \"jar.xsd\"\x7d, \x7bfile = \"lid.xsd\"\x7d]"

/-- A folder with a jar and the two manifests. -/
def pantry : File.System :=
  .ofEntries [(⟨"/pantry/jar.xsd"⟩, ⟨⟨"/pantry/jar.xsd"⟩,
      "<schema xmlns=\"http://www.w3.org/2001/XMLSchema\">" ++
        "<element name=\"jar\" type=\"string\"/></schema>"⟩),
    (⟨"/pantry/jars.toml"⟩, ⟨⟨"/pantry/jars.toml"⟩, jars⟩),
    (⟨"/pantry/lids.toml"⟩, ⟨⟨"/pantry/lids.toml"⟩, jarAndLid⟩)]

theorem manifest_asSingles_pantry :
    (Command.manifest ⟨"/pantry/jars.toml"⟩).run pantry =
      .ok ["/pantry/jar.xsd:\nrecord jar \x7b\n  <body>: string\n\x7d",
        "/pantry/jar.xsd:\nrecord jar \x7b\n  <body>: string\n\x7d"] ∧
    (Command.manifest ⟨"/pantry/lids.toml"⟩).run pantry =
      .error (.schemaSet (.unreadable ⟨"/pantry/lid.xsd"⟩)) := by
  constructor
  · have hread : pantry.read ⟨"/pantry/jars.toml"⟩ = some ⟨⟨"/pantry/jars.toml"⟩, jars⟩ := rfl
    have hparse : Manifest.parse jars = some [⟨⟨"jar.xsd"⟩, none, some "jar", none⟩,
        ⟨⟨"/pantry/jar.xsd"⟩, none, none, none⟩] := by decide +kernel
    obtain ⟨hok, htexts, -⟩ := manifest_asSingles hread hparse
    have hjar : ∀ e : ManifestEntry, e = ⟨⟨"jar.xsd"⟩, none, some "jar", none⟩ ∨
        e = ⟨⟨"/pantry/jar.xsd"⟩, none, none, none⟩ →
        (Command.infer (e.alone ⟨"/pantry/jars.toml"⟩)).run pantry =
          .ok ["record jar \x7b\n  <body>: string\n\x7d"] := by
      rintro e (rfl | rfl) <;> exact eq_ok_of_toOption (by decide +kernel)
    obtain ⟨texts, hrun⟩ := hok.mpr fun e he => ⟨_, hjar e (by simpa using he)⟩
    obtain ⟨hlength, hget⟩ := htexts texts hrun
    obtain ⟨x, y, rfl⟩ := List.length_eq_two.mp hlength
    obtain ⟨_, hfirst, hx⟩ := hget 0 _ rfl
    obtain ⟨_, hsecond, hy⟩ := hget 1 _ rfl
    cases hfirst.symm.trans (hjar _ (.inl rfl))
    cases hsecond.symm.trans (hjar _ (.inr rfl))
    rw [hrun, Option.some.inj hx, Option.some.inj hy]
    rfl
  · have hread : pantry.read ⟨"/pantry/lids.toml"⟩ =
        some ⟨⟨"/pantry/lids.toml"⟩, jarAndLid⟩ := rfl
    have hparse : Manifest.parse jarAndLid = some [⟨⟨"jar.xsd"⟩, none, none, none⟩,
        ⟨⟨"lid.xsd"⟩, none, none, none⟩] := by decide +kernel
    obtain ⟨-, -, herror⟩ := manifest_asSingles hread hparse
    refine (herror _).mpr ⟨[_], _, [], rfl, fun e he => ?_, ?_⟩
    · rw [List.mem_singleton.mp he]
      exact ⟨_, eq_ok_of_toOption (a := ["record jar \x7b\n  <body>: string\n\x7d"])
        (by decide +kernel)⟩
    · exact error_of_map_eq_error (f := fun _ => ()) (by decide +kernel)

end SchemaShapes
