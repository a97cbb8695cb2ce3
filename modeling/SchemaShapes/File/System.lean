import SchemaShapes.File.Path

/-! File systems, as far as reading goes: a path leads to a file with a text or it does not. A
system holds finitely many files, so only finitely many documents can be read from it. -/
namespace SchemaShapes.File

/-- A file that was read: the path that leads straight to it, and its text. -/
structure Found where
  location : Path
  text : String

structure System where
  read : Path → Option Found
  /-- Where the files are that can be read. -/
  locations : List Path
  read_mem : ∀ p found, read p = some found → found.location ∈ locations

/-- The system in which only the given paths lead to files. -/
def System.ofEntries (entries : List (Path × Found)) : System where
  read p := (entries.find? (·.1 = p)).map (·.2)
  locations := entries.map (·.2.location)
  read_mem p found h := by
    obtain ⟨entry, he, rfl⟩ := Option.map_eq_some_iff.1 h
    exact List.mem_map.2 ⟨entry, List.mem_of_find?_eq_some he, rfl⟩

/-- A tree of folders, given by its files. A file is found at the names that lead to it from the
root; it has a text unless what it holds is none. The folders are those that lead to files. -/
structure Tree where
  files : List (List (List Char) × Option String)

namespace Tree

/-- The names that the steps of a path lead through. -/
def names (p : Path) : List (List Char) :=
  p.steps.filterMap fun
    | .entry name => some name
    | _ => none

/-- The tree of files in a folder, each with its path from there. -/
def ofFolder (folder : Path) (files : List (Path × Option String)) : Tree :=
  ⟨files.map fun (p, text) => (names (folder.join p), text)⟩

/-- Whether names lead to a folder. -/
def isFolder (t : Tree) (names : List (List Char)) : Bool :=
  names = [] || t.files.any fun (file, _) => names.isPrefixOf file && names ≠ file

/-- Whether names lead to a file. -/
def isFile (t : Tree) (names : List (List Char)) : Bool :=
  t.files.any fun (file, _) => file = names

/-- Where the parts of a path lead from a place in the tree. Every part needs a folder to start
from, also one that leads nowhere. -/
def follow (t : Tree) (names : List (List Char)) : List (List Char) → Option (List (List Char))
  | [] => some names
  | part :: rest =>
    if t.isFolder names then
      match Path.stepOf part with
      | some (.entry name) =>
        let inner := names ++ [name]
        if t.isFolder inner || t.isFile inner then t.follow inner rest else none
      | some .up => t.follow names.dropLast rest
      | _ => t.follow names rest
    else
      none

/-- The path that leads straight to the file at some names. -/
def locationOf (names : List (List Char)) : Path := Path.assemble (some .root) names

/-- Read a file. Paths that do not start at the root lead nowhere. -/
def read (t : Tree) (p : Path) : Option Found := do
  let (some .root, parts) := Path.head p.parts | none
  let names ← t.follow [] parts
  let (file, some text) ← t.files.find? (·.1 = names) | none
  return ⟨locationOf file, text⟩

/-- A tree as a file system. -/
def system (t : Tree) : System where
  read := t.read
  locations := t.files.map fun (file, _) => locationOf file
  read_mem p found h := by
    simp only [read] at h
    split at h
    · obtain ⟨names, _, h⟩ := Option.bind_eq_some_iff.1 h
      obtain ⟨entry, he, h⟩ := Option.bind_eq_some_iff.1 h
      split at h
      · cases h
        exact List.mem_map.2 ⟨_, List.mem_of_find?_eq_some he, rfl⟩
      · cases h
    · cases h

end Tree

end SchemaShapes.File
