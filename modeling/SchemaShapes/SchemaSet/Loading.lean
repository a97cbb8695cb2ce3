import SchemaShapes.Catalog.Basic
import SchemaShapes.Schema.Document
import SchemaShapes.SchemaSet.Resolver

/-! Loading of documents. Starting from a root, the documents that links lead to are loaded in the
order in which they are met, all links of a document before those of the documents that it leads
to, and each location once. The first step that fails is the error. -/
namespace SchemaShapes

open File (Found Path)
open Schema (Document Link)

/-- A document whose links have to be followed. Its locations are written as seen from a base. -/
structure Pending where
  base : Option Path
  location : Option Path
  document : Document

def Pending.loaded (p : Pending) : LoadedDocument := ⟨p.location, p.document⟩

/-- Whether a path is among those that are loaded. -/
def isLoaded (loaded : List Path) (p : Path) : Bool := loaded.any p.same

/-- The places that are not loaded yet. -/
def unloaded (locations loaded : List Path) : List Path :=
  locations.filter (!isLoaded loaded ·)

theorem length_unloaded_cons_lt {locations loaded : List Path} {p : Path}
    (hp : isLoaded locations p) (hl : isLoaded loaded p = false) :
    (unloaded locations (p :: loaded)).length < (unloaded locations loaded).length := by
  have hsub : unloaded locations (p :: loaded) =
      (unloaded locations loaded).filter (!Path.same · p) := by
    simp [unloaded, isLoaded, List.filter_filter]
  obtain ⟨q, hq, hsame⟩ : ∃ q ∈ locations, p.same q := by simpa [isLoaded] using hp
  simp only [Path.same, decide_eq_true_eq] at hsame
  have hmem : q ∈ unloaded locations loaded := by
    simpa [unloaded, hq, isLoaded, Path.same, hsame] using hl
  rw [hsub]
  exact List.length_filter_lt_length_iff_exists.2 ⟨q, hmem, by simp [Path.same, hsame]⟩

/-- The namespace that a link passes on to a document that has none of its own. -/
def Schema.Link.passedOn (l : Link) (ns : Option String) : Option String :=
  match l.kind with
  | .inclusion => ns
  | .importing => none

/-- The document that was found at a location. -/
def Pending.ofFound (found : Found) (ns : Option String) : Except SchemaSetError Pending :=
  match Document.parse found.text ns with
  | .error e => .error (.document (some found.location) e)
  | .ok d => .ok ⟨some found.location, some found.location, d⟩

/-- What following links brings: documents that are new, and all locations that are loaded. -/
structure Discovery where
  found : List Pending
  loaded : List Path

/-- Follow links of a document with a base and a target namespace. Links without a location and
links to what is loaded bring nothing. -/
def discover (resolve : Resolution) (base : Option Path) (ns : Option String)
    (loaded : List Path) : List Link → Except SchemaSetError Discovery
  | [] => .ok ⟨[], loaded⟩
  | l :: rest =>
    match l.location with
    | none => discover resolve base ns loaded rest
    | some location =>
      match resolve base location with
      | .error e => .error e
      | .ok found =>
        if isLoaded loaded found.location then
          discover resolve base ns loaded rest
        else
          match Pending.ofFound found (l.passedOn ns) with
          | .error e => .error e
          | .ok p =>
            (discover resolve base ns (found.location :: loaded) rest).map fun d =>
              { d with found := p :: d.found }

/-- Every document that is discovered was not loaded before. -/
theorem length_unloaded_discover {resolve : Resolution} {base : Option Path} {ns : Option String}
    {loaded locations : List Path} {links : List Link} {d : Discovery}
    (h : discover resolve base ns loaded links = .ok d)
    (hmem : ∀ l ∈ links, ∀ location ∈ l.location, ∀ found,
      resolve base location = .ok found → isLoaded locations found.location) :
    (unloaded locations d.loaded).length + d.found.length ≤
      (unloaded locations loaded).length := by
  induction links generalizing loaded d with
  | nil =>
    cases h
    simp
  | cons l rest ih =>
    obtain ⟨hl, hrest⟩ := List.forall_mem_cons.mp hmem
    rw [discover] at h
    split at h
    · exact ih h hrest
    · next location hlocation =>
      split at h
      · cases h
      · next found hfound =>
        split at h
        · exact ih h hrest
        · next hnew =>
          split at h
          · cases h
          · cases hd : discover resolve base ns (found.location :: loaded) rest with
            | error e => simp [hd, Except.map] at h
            | ok e =>
              simp only [hd, Except.map, Except.ok.injEq] at h
              subst h
              have hlt := length_unloaded_cons_lt (hl location hlocation found hfound)
                (by simpa using hnew)
              have := ih hd hrest
              simp only [List.length_cons]
              omega

/-- Load what the links of waiting documents lead to. -/
def loadAll (r : Resolver) (loaded : List Path) :
    List Pending → Except SchemaSetError (List LoadedDocument)
  | [] => .ok []
  | p :: waiting =>
    match _h : discover r.resolve p.base p.document.targetNamespace loaded p.document.links with
    | .error e => .error e
    | .ok d => (loadAll r d.loaded (waiting ++ d.found)).map (p.loaded :: ·)
termination_by waiting => (unloaded r.locations loaded).length + waiting.length
decreasing_by
  have := length_unloaded_discover _h fun _ _ _ _ found hfound =>
    List.any_eq_true.2 ⟨found.location, r.resolve_mem _ _ _ hfound, by simp [Path.same]⟩
  simp only [List.length_append, List.length_cons]
  omega

/-- Load the documents that a text leads to. The locations in it are seen from no document. -/
def loadDocuments (r : Resolver) (location : Option Path) (text : String) :
    Except SchemaSetError (List LoadedDocument) :=
  match Document.parse text none with
  | .error e => .error (.document location e)
  | .ok d => loadAll r location.toList [⟨none, location, d⟩]

end SchemaShapes
