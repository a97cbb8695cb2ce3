import SchemaShapes.Proofs.SchemaSet.Rounds

/-! Loading in single requests. Every location that a document writes is a request. Requests are met
one at a time, those of a document in the order in which they are written there and after those of
all documents that were discovered before it: a request is resolved first, and if its place is new,
the document at it is read. -/
namespace SchemaShapes

open File (Found Path)
open Relation (ReflTransGen)
open Schema (Document Link)

/-- A location as it is seen from a base, and the namespace that is passed on to what it leads
to. -/
structure Request where
  base : Option Path
  location : String
  passedOn : Option String

/-- What a link of a document asks for. Without a location it asks for nothing. -/
def Schema.Link.request? (base : Option Path) (ns : Option String) (l : Link) : Option Request :=
  l.location.map (⟨base, ·, l.passedOn ns⟩)

/-- The requests that links of a document make. -/
def requestsOf (base : Option Path) (ns : Option String) (links : List Link) : List Request :=
  links.filterMap (·.request? base ns)

def Pending.requests (p : Pending) : List Request :=
  requestsOf p.base p.document.targetNamespace p.document.links

/-- The requests of documents, one document after the other. -/
def requests (documents : List Pending) : List Request := documents.flatMap Pending.requests

/-- The places of documents, the last one first. -/
def placesOf (documents : List Pending) : List Path := (documents.filterMap (·.location)).reverse

/-- One of some documents stands at a path. -/
def Occupied (documents : List Pending) (path : Path) : Prop :=
  ∃ p ∈ documents, ∃ place ∈ p.location, path.same place

/-! ### Requests one at a time -/

section

variable (resolve : Resolution) (documents : List Pending)

/-- A request that is met brings the document at its place, unless one that is there already stands
at it. -/
inductive Request.Brings (x : Request) : List Pending → Prop
  | known {found : Found} (h : resolve x.base x.location = .ok found)
      (hplace : Occupied documents found.location) : x.Brings []
  | new {found : Found} {d : Document} (h : resolve x.base x.location = .ok found)
      (hplace : ¬Occupied documents found.location)
      (hparse : Document.parse found.text x.passedOn = .ok d) :
      x.Brings [⟨some found.location, some found.location, d⟩]

/-- A request fails if it leads nowhere, or to a document that is refused. -/
inductive Request.Fails (x : Request) : SchemaSetError → Prop
  | unresolved {e : SchemaSetError} (h : resolve x.base x.location = .error e) : x.Fails e
  | refused {found : Found} {cause : Schema.DocumentError}
      (h : resolve x.base x.location = .ok found) (hplace : ¬Occupied documents found.location)
      (hparse : Document.parse found.text x.passedOn = .error cause) :
      x.Fails (.document (some found.location) cause)

end

/-- How far loading has come: the documents in the order of their discovery, the requests that are
met, and those ahead. -/
structure Progress where
  documents : List Pending
  met : List Request
  ahead : List Request

/-- At the start there are a root and its requests. -/
def Progress.start (root : Pending) : Progress := ⟨[root], [], root.requests⟩

/-- The first request ahead is met, and those of the document that it brings go behind the others. -/
inductive Advance (resolve : Resolution) : Progress → Progress → Prop
  | meet {documents new : List Pending} {met ahead : List Request} {x : Request}
      (h : x.Brings resolve documents new) :
      Advance resolve ⟨documents, met, x :: ahead⟩
        ⟨documents ++ new, met ++ [x], ahead ++ requests new⟩

/-- Loading stops with its documents when nothing is ahead, or with the error of the first request
ahead. -/
inductive Progress.Stops (resolve : Resolution) :
    Progress → Except SchemaSetError (List Pending) → Prop
  | complete {documents : List Pending} {met : List Request} :
      Stops resolve ⟨documents, met, []⟩ (.ok documents)
  | failed {documents : List Pending} {met ahead : List Request} {x : Request} {e : SchemaSetError}
      (h : x.Fails resolve documents e) : Stops resolve ⟨documents, met, x :: ahead⟩ (.error e)

section

variable {resolve : Resolution} {root : Pending} {documents new : List Pending} {x : Request}
  {s t : Progress} {outcome : Except SchemaSetError (List Pending)}

/-! ### Requests are met or fail -/

theorem isLoaded_placesOf {path : Path} :
    isLoaded (placesOf documents) path ↔ Occupied documents path := by
  rw [isLoaded_iff]
  simp only [placesOf, List.mem_reverse, List.mem_filterMap]
  constructor
  · rintro ⟨place, ⟨p, hp, hplace⟩, hsame⟩
    exact ⟨p, hp, place, hplace, hsame⟩
  · rintro ⟨p, hp, place, hplace, hsame⟩
    exact ⟨place, ⟨p, hp, hplace⟩, hsame⟩

/-- What a request comes to when some places are loaded: the new document, if any, or an error. -/
def Request.answer (resolve : Resolution) (loaded : List Path) (x : Request) :
    Except SchemaSetError (List Pending) :=
  match resolve x.base x.location with
  | .error e => .error e
  | .ok found =>
    if isLoaded loaded found.location then .ok []
    else (Pending.ofFound found x.passedOn).map ([·])

theorem Request.Brings.answer_eq (h : x.Brings resolve documents new) :
    x.answer resolve (placesOf documents) = .ok new := by
  cases h with
  | known h hplace => simp [answer, h, isLoaded_placesOf.mpr hplace]
  | new h hplace hparse =>
    have hnew : isLoaded (placesOf documents) _ = false :=
      Bool.eq_false_iff.mpr (mt isLoaded_placesOf.mp hplace)
    simp [answer, h, hnew, Pending.ofFound, hparse, Except.map]

theorem Request.Fails.answer_eq {e : SchemaSetError} (h : x.Fails resolve documents e) :
    x.answer resolve (placesOf documents) = .error e := by
  cases h with
  | unresolved h => simp [answer, h]
  | refused h hplace hparse =>
    have hnew : isLoaded (placesOf documents) _ = false :=
      Bool.eq_false_iff.mpr (mt isLoaded_placesOf.mp hplace)
    simp [answer, h, hnew, Pending.ofFound, hparse, Except.map]

/-- A request is met or fails, whatever is there already. -/
theorem Request.brings_or_fails (resolve : Resolution) (documents : List Pending) (x : Request) :
    (∃ new, x.Brings resolve documents new) ∨ ∃ e, x.Fails resolve documents e := by
  cases h : resolve x.base x.location with
  | error e => exact .inr ⟨e, .unresolved h⟩
  | ok found =>
    by_cases hplace : Occupied documents found.location
    · exact .inl ⟨[], .known h hplace⟩
    · cases hparse : Document.parse found.text x.passedOn with
      | error cause => exact .inr ⟨_, .refused h hplace hparse⟩
      | ok d => exact .inl ⟨_, .new h hplace hparse⟩

theorem Request.Brings.eq {new' : List Pending} (h : x.Brings resolve documents new)
    (h' : x.Brings resolve documents new') : new = new' :=
  Except.ok.inj (h.answer_eq.symm.trans h'.answer_eq)

theorem Request.Fails.not_brings {e : SchemaSetError} (h : x.Fails resolve documents e) :
    ¬x.Brings resolve documents new := by
  intro h'
  cases h.answer_eq.symm.trans h'.answer_eq

theorem Request.Fails.eq {e e' : SchemaSetError} (h : x.Fails resolve documents e)
    (h' : x.Fails resolve documents e') : e = e' :=
  Except.error.inj (h.answer_eq.symm.trans h'.answer_eq)

theorem Advance.rightUnique : Relator.RightUnique (Advance resolve) := by
  intro s t u ht hu
  obtain ⟨h⟩ := ht
  obtain ⟨h'⟩ := hu
  rw [h.eq h']

theorem Progress.Stops.not_advance (h : s.Stops resolve outcome) : ¬Advance resolve s t := by
  intro hadvance
  cases h with
  | complete => cases hadvance
  | failed h =>
    obtain ⟨h'⟩ := hadvance
    exact h.not_brings h'

theorem Progress.Stops.eq (h : s.Stops resolve outcome)
    {outcome' : Except SchemaSetError (List Pending)} (h' : s.Stops resolve outcome') :
    outcome = outcome' := by
  cases h with
  | complete =>
    cases h'
    rfl
  | failed h =>
    obtain _ | h' := h'
    rw [h.eq h']

theorem Progress.Stops.eq_of_run (h : s.Stops resolve outcome)
    (hrun : ReflTransGen (Advance resolve) s t) : s = t := by
  rcases hrun.cases_head with heq | ⟨u, hadvance, -⟩
  · exact heq
  · exact absurd hadvance h.not_advance

/-- There is one run to where loading stops, and every other one is a part of it. -/
theorem Progress.Stops.run_of_run {u : Progress} (hu : u.Stops resolve outcome)
    (hsu : ReflTransGen (Advance resolve) s u) (hst : ReflTransGen (Advance resolve) s t) :
    ReflTransGen (Advance resolve) t u := by
  rcases ReflTransGen.total_of_right_unique Advance.rightUnique hst hsu with htu | hut
  · exact htu
  · exact hu.eq_of_run hut ▸ .refl

/-! ### What runs have met -/

/-- A document was read for one of some requests, and its own requests are seen from its place. -/
def ReadFor (resolve : Resolution) (met : List Request) (p : Pending) : Prop :=
  ∃ x ∈ met, ∃ found, resolve x.base x.location = .ok found ∧
    Document.parse found.text x.passedOn = .ok p.document ∧
    p.location = some found.location ∧ p.base = some found.location

/-- What loading has come to: every request of the documents is met or ahead, in their order; what
is met leads to the place of a document, and the documents after the root were read for what is
met. -/
structure Progress.Sound (resolve : Resolution) (root : Pending) (s : Progress) : Prop where
  order : requests s.documents = s.met ++ s.ahead
  resolved : ∀ x ∈ s.met, ∃ found, resolve x.base x.location = .ok found ∧
    Occupied s.documents found.location
  parsed : ∃ rest, s.documents = root :: rest ∧ ∀ p ∈ rest, ReadFor resolve s.met p

theorem Occupied.append {path : Path} (h : Occupied documents path) :
    Occupied (documents ++ new) path := by
  obtain ⟨p, hp, hplace⟩ := h
  exact ⟨p, List.mem_append_left _ hp, hplace⟩

theorem requests_append : requests (documents ++ new) = requests documents ++ requests new :=
  List.flatMap_append

theorem Progress.sound_start : (Progress.start root).Sound resolve root where
  order := by simp [start, requests]
  resolved := by simp [start]
  parsed := ⟨[], rfl, by simp⟩

/-- A request that is met leads to the place of a document. -/
theorem Request.Brings.exists_resolve (h : x.Brings resolve documents new) :
    ∃ found, resolve x.base x.location = .ok found ∧
      Occupied (documents ++ new) found.location := by
  cases h with
  | @known found h hplace => exact ⟨found, h, hplace.append⟩
  | @new found d h =>
    refine ⟨found, h, _, List.mem_append_right _ List.mem_cons_self, found.location, rfl, ?_⟩
    simp [Path.same]

theorem Request.Brings.readFor {met : List Request} (h : x.Brings resolve documents new)
    (hx : x ∈ met) : ∀ p ∈ new, ReadFor resolve met p := by
  cases h with
  | known => simp
  | @new found d h _ hparse =>
    intro p hp
    obtain rfl := List.mem_singleton.mp hp
    exact ⟨x, hx, found, h, hparse, rfl, rfl⟩

theorem ReadFor.mono {met met' : List Request} {p : Pending} (h : ReadFor resolve met p)
    (hsub : met ⊆ met') : ReadFor resolve met' p := by
  obtain ⟨x, hx, hfound⟩ := h
  exact ⟨x, hsub hx, hfound⟩

theorem Advance.sound (h : Advance resolve s t) (hs : s.Sound resolve root) :
    t.Sound resolve root := by
  obtain @⟨documents, new, met, ahead, x, h⟩ := h
  refine ⟨?_, ?_, ?_⟩
  · rw [requests_append, hs.order]
    simp
  · intro y hy
    rcases List.mem_append.mp hy with hy | hy
    · obtain ⟨found, hfound, hplace⟩ := hs.resolved y hy
      exact ⟨found, hfound, hplace.append⟩
    · obtain rfl := List.mem_singleton.mp hy
      exact h.exists_resolve
  · obtain ⟨rest, hrest, hread⟩ := hs.parsed
    refine ⟨rest ++ new, by rw [show documents = _ from hrest, List.cons_append], ?_⟩
    intro p hp
    rcases List.mem_append.mp hp with hp | hp
    · exact (hread p hp).mono (List.subset_append_left _ _)
    · exact h.readFor (List.mem_append_right _ List.mem_cons_self) p hp

theorem sound_of_run (h : ReflTransGen (Advance resolve) (.start root) s) :
    s.Sound resolve root := by
  induction h with
  | refl => exact Progress.sound_start
  | tail _ hadvance ih => exact hadvance.sound ih

/-! ### Requests of links -/

variable {base : Option Path} {ns : Option String} {l : Link} {links : List Link}

/-- Following a link without a location changes nothing. -/
theorem discover_cons_of_none {loaded : List Path} (hl : l.request? base ns = none) :
    discover resolve base ns loaded (l :: links) = discover resolve base ns loaded links := by
  have hlocation : l.location = none := Option.map_eq_none_iff.mp hl
  rw [discover, hlocation]

/-- Following a link meets its request, and what this brings is there when the next one is
followed. -/
theorem discover_cons_of_some (hl : l.request? base ns = some x) :
    discover resolve base ns (placesOf documents) (l :: links) =
      (x.answer resolve (placesOf documents)).bind fun new =>
        (discover resolve base ns (placesOf (documents ++ new)) links).map fun d =>
          { d with found := new ++ d.found } := by
  obtain ⟨location, hlocation, rfl⟩ := Option.map_eq_some_iff.mp hl
  simp only [discover, hlocation, Request.answer]
  cases resolve base location with
  | error e => rfl
  | ok found =>
    cases hnew : isLoaded (placesOf documents) found.location with
    | true =>
      simp only [hnew, if_true, Except.bind, List.append_nil]
      cases discover resolve base ns (placesOf documents) links <;> rfl
    | false =>
      simp only [hnew, Bool.false_eq_true, if_false]
      cases hp : Pending.ofFound found (l.passedOn ns) with
      | error e => rfl
      | ok p =>
        have hplaces : placesOf (documents ++ [p]) = found.location :: placesOf documents := by
          have hloads := Pending.loads_of_ofFound (v := ⟨found, l.passedOn ns⟩) hp
          simp [placesOf, hloads.1.location_eq]
        simp only [Except.map, Except.bind, hplaces, List.singleton_append]

/-- The documents that are discovered by following links, and the requests that this meets. -/
theorem advances_of_discover {d : Discovery}
    (h : discover resolve base ns (placesOf documents) links = .ok d) (met ahead : List Request) :
    ReflTransGen (Advance resolve) ⟨documents, met, requestsOf base ns links ++ ahead⟩
      ⟨documents ++ d.found, met ++ requestsOf base ns links, ahead ++ requests d.found⟩ ∧
    d.loaded = placesOf (documents ++ d.found) := by
  induction links generalizing documents d met ahead with
  | nil =>
    cases h
    simp [requestsOf, requests, ReflTransGen.refl]
  | cons l links ih =>
    cases hl : l.request? base ns with
    | none =>
      rw [discover_cons_of_none hl] at h
      rw [requestsOf, List.filterMap_cons_none hl]
      exact ih h met ahead
    | some x =>
      rw [discover_cons_of_some hl] at h
      rw [requestsOf, List.filterMap_cons_some hl]
      rcases x.brings_or_fails resolve documents with ⟨new, hnew⟩ | ⟨e, hfails⟩
      · rw [hnew.answer_eq] at h
        obtain ⟨d, hd, rfl⟩ := exists_of_map_eq_ok h
        obtain ⟨hrun, hloaded⟩ := ih hd (met ++ [x]) (ahead ++ requests new)
        have hstep : Advance resolve ⟨documents, met, x :: requestsOf base ns links ++ ahead⟩
            ⟨documents ++ new, met ++ [x], requestsOf base ns links ++ (ahead ++ requests new)⟩ := by
          rw [List.cons_append, ← List.append_assoc]
          exact .meet hnew
        simp only [requests_append, List.append_assoc] at hrun hloaded ⊢
        exact ⟨.head hstep hrun, hloaded⟩
      · rw [hfails.answer_eq] at h
        cases h

/-- Where following links fails, the requests that they make are met up to one that fails. -/
theorem stops_of_discover {e : SchemaSetError}
    (h : discover resolve base ns (placesOf documents) links = .error e)
    (met ahead : List Request) :
    ∃ s, ReflTransGen (Advance resolve) ⟨documents, met, requestsOf base ns links ++ ahead⟩ s ∧
      s.Stops resolve (.error e) := by
  induction links generalizing documents met ahead with
  | nil => cases h
  | cons l links ih =>
    cases hl : l.request? base ns with
    | none =>
      rw [discover_cons_of_none hl] at h
      rw [requestsOf, List.filterMap_cons_none hl]
      exact ih h met ahead
    | some x =>
      rw [discover_cons_of_some hl] at h
      rw [requestsOf, List.filterMap_cons_some hl]
      rcases x.brings_or_fails resolve documents with ⟨new, hnew⟩ | ⟨e', hfails⟩
      · rw [hnew.answer_eq] at h
        have hd := error_of_map_eq_error h
        obtain ⟨s, hrun, hs⟩ := ih hd (met ++ [x]) (ahead ++ requests new)
        refine ⟨s, .head ?_ hrun, hs⟩
        rw [List.cons_append, ← List.append_assoc]
        exact .meet hnew
      · rw [hfails.answer_eq] at h
        cases h
        exact ⟨_, .refl, .failed hfails⟩

/-! ### Requests of rounds -/

/-- The documents of a stage, and the requests of those whose links have been followed and of those
that wait. -/
def Stage.progress (s : Stage) : Progress :=
  ⟨s.followed ++ s.waiting, requests s.followed, requests s.waiting⟩

theorem advances_of_round {s t : Stage} (h : Round resolve s t)
    (hs : s.loaded = placesOf s.progress.documents) :
    ReflTransGen (Advance resolve) s.progress t.progress ∧
      t.loaded = placesOf t.progress.documents := by
  obtain @⟨loaded, p, waiting, followed, d, h⟩ := h
  obtain rfl : loaded = placesOf (followed ++ p :: waiting) := hs
  have hrun := advances_of_discover h (requests followed) (requests waiting)
  have hdocuments :
      followed ++ [p] ++ (waiting ++ d.found) = followed ++ p :: waiting ++ d.found := by
    simp
  have hmet : requests (followed ++ [p]) = requests followed ++ p.requests := by
    simp [requests]
  rw [← hdocuments, ← requests_append] at hrun
  rw [Stage.progress, Stage.progress, hmet]
  exact hrun

theorem advances_of_run {s t : Stage} (h : ReflTransGen (Round resolve) s t)
    (hs : s.loaded = placesOf s.progress.documents) :
    ReflTransGen (Advance resolve) s.progress t.progress ∧
      t.loaded = placesOf t.progress.documents := by
  induction h with
  | refl => exact ⟨.refl, hs⟩
  | tail _ hround ih =>
    obtain ⟨hrun, hloaded⟩ := ih
    obtain ⟨hrun', hloaded'⟩ := advances_of_round hround hloaded
    exact ⟨hrun.trans hrun', hloaded'⟩

theorem stops_of_ends {s : Stage} (h : Ends resolve s outcome)
    (hs : s.loaded = placesOf s.progress.documents) :
    ∃ t, ReflTransGen (Advance resolve) s.progress t ∧ t.Stops resolve outcome := by
  cases h with
  | @complete loaded followed =>
    refine ⟨_, .refl, ?_⟩
    simpa [Stage.progress, requests] using Progress.Stops.complete
  | @failed loaded p waiting followed e h =>
    obtain rfl : loaded = placesOf (followed ++ p :: waiting) := hs
    exact stops_of_discover h (requests followed) (requests waiting)

theorem Stage.progress_start : (Stage.start root).progress = .start root := by
  simp [progress, start, Progress.start, requests]

theorem Stage.loaded_start :
    (Stage.start root).loaded = placesOf (Stage.start root).progress.documents := by
  cases h : root.location <;> simp [progress, start, placesOf, h]

/-- What rounds from a root end with is what its requests stop with. -/
theorem stops_of_run {s : Stage} (h : ReflTransGen (Round resolve) (.start root) s)
    (hends : Ends resolve s outcome) :
    ∃ t, ReflTransGen (Advance resolve) (.start root) t ∧ t.Stops resolve outcome := by
  obtain ⟨hrun, hloaded⟩ := advances_of_run h Stage.loaded_start
  obtain ⟨t, hrun', ht⟩ := stops_of_ends hends hloaded
  rw [Stage.progress_start] at hrun
  exact ⟨t, hrun.trans hrun', ht⟩

end

end SchemaShapes
