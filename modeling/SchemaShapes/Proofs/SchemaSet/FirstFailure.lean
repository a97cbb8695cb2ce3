import SchemaShapes.Proofs.Catalog.Faults
import SchemaShapes.Proofs.SchemaSet.BreadthFirst
import SchemaShapes.Proofs.SchemaSet.Requests

/-! The first failure. Loading meets requests in one order, and what it gives is the error of the
first request that fails, however many others would fail after it. Only when none fails are the
documents looked at together, and then the fault is one of the documents alone. -/
namespace SchemaShapes

open File (Found Path)
open Relation (ReflTransGen)
open Schema (Document)

/-- A resolver refuses a location for being of a kind that it cannot handle, or because nothing can
be read there. -/
def Resolver.RefusesLocations (r : Resolver) : Prop :=
  ∀ base location e, r.resolve base location = .error e →
    (∃ path, e = .unreadable path) ∨ ∃ written, e = .unsupportedLocation written

theorem Resolver.refusesLocations_ofTexts (documents : List (String × String)) :
    (Resolver.ofTexts documents).RefusesLocations := by
  intro base location e h
  simp only [ofTexts] at h
  split at h
  · cases h
  · cases h
    exact .inr ⟨location, rfl⟩

theorem Resolver.eq_of_pathOf_error {location : String} {e : SchemaSetError}
    (h : pathOf location = .error e) : e = .unsupportedLocation location := by
  simp only [pathOf] at h
  split_ifs at h
  exact (Except.error.inj h).symm

theorem Resolver.eq_of_pathFrom_error {folder base : Option Path} {location : String}
    {e : SchemaSetError} (h : pathFrom folder base location = .error e) :
    e = .unsupportedLocation location := by
  cases hpath : pathOf location with
  | error e' =>
    rw [pathFrom, hpath] at h
    cases h
    exact eq_of_pathOf_error hpath
  | ok path =>
    have hok : ∃ path, pathFrom folder base location = .ok path := by
      rw [pathFrom, hpath]
      by_cases habsolute : path.isAbsolute
      · exact ⟨path, if_pos habsolute⟩
      · cases (base.bind Path.parent).or folder with
        | none => exact ⟨path, if_neg habsolute⟩
        | some folder => exact ⟨folder.join path, if_neg habsolute⟩
    obtain ⟨path, hok⟩ := hok
    cases hok.symm.trans h

theorem Resolver.refusesLocations_ofFiles (files : File.System) (folder : Option Path) :
    (Resolver.ofFiles files folder).RefusesLocations := by
  intro base location e h
  simp only [ofFiles, findFile] at h
  split at h
  · next e' hpath =>
    cases h
    exact .inr ⟨location, eq_of_pathFrom_error hpath⟩
  · next path hpath =>
    split at h
    · cases h
    · cases h
      exact .inl ⟨path, rfl⟩

/-! ### Answers -/

section

variable {resolve resolve' : Resolution} {root : Pending} {s : Progress}
  {outcome : Except SchemaSetError (List Pending)}

/-- Resolutions answer a request alike. -/
def Request.AnsweredAlike (resolve resolve' : Resolution) (x : Request) : Prop :=
  resolve' x.base x.location = resolve x.base x.location

theorem Request.Brings.congr {documents new : List Pending} {x : Request}
    (h : x.Brings resolve documents new) (hx : x.AnsweredAlike resolve resolve') :
    x.Brings resolve' documents new := by
  cases h with
  | known h hplace => exact .known (hx.trans h) hplace
  | new h hplace hparse => exact .new (hx.trans h) hplace hparse

theorem Request.Fails.congr {documents : List Pending} {x : Request} {e : SchemaSetError}
    (h : x.Fails resolve documents e) (hx : x.AnsweredAlike resolve resolve') :
    x.Fails resolve' documents e := by
  cases h with
  | unresolved h => exact .unresolved (hx.trans h)
  | refused h hplace hparse => exact .refused (hx.trans h) hplace hparse

theorem run_congr (h : ReflTransGen (Advance resolve) (.start root) s)
    (hmet : ∀ x ∈ s.met, x.AnsweredAlike resolve resolve') :
    ReflTransGen (Advance resolve') (.start root) s := by
  induction h with
  | refl => exact .refl
  | tail _ hadvance ih =>
    obtain ⟨h⟩ := hadvance
    have hx := hmet _ (List.mem_append_right _ List.mem_cons_self)
    exact .tail (ih fun y hy => hmet y (List.mem_append_left _ hy)) (.meet (h.congr hx))

theorem Progress.Stops.congr (h : s.Stops resolve outcome)
    (hahead : ∀ x ∈ s.ahead.head?, x.AnsweredAlike resolve resolve') :
    s.Stops resolve' outcome := by
  cases h with
  | complete => exact .complete
  | failed h => exact .failed (h.congr (hahead _ rfl))

/-- A resolution as far as it leads to given places. -/
def Resolver.restricted (resolve : Resolution) (places : List Path) : Resolver where
  resolve base location :=
    match resolve base location with
    | .error e => .error e
    | .ok found =>
      if found.location ∈ places then .ok found else .error (.unsupportedLocation location)
  locations := places
  resolve_mem base location found h := by
    split at h
    · cases h
    · split_ifs at h with hmem
      cases h
      exact hmem

/-- Where loading stops, it has stopped for a resolver, even if the resolution leads to places
without end. -/
theorem exists_resolver_of_stops (hrun : ReflTransGen (Advance resolve) (.start root) s)
    (hstops : s.Stops resolve outcome) :
    ∃ r : Resolver, ReflTransGen (Advance r.resolve) (.start root) s ∧
      s.Stops r.resolve outcome := by
  let places := (s.met ++ s.ahead).filterMap fun x =>
    (resolve x.base x.location).toOption.map (·.location)
  have hanswers : ∀ x ∈ s.met ++ s.ahead,
      x.AnsweredAlike resolve (Resolver.restricted resolve places).resolve := by
    intro x hx
    simp only [Request.AnsweredAlike, Resolver.restricted]
    cases hfound : resolve x.base x.location with
    | error e => rfl
    | ok found =>
      have hmem : found.location ∈ places :=
        List.mem_filterMap.mpr ⟨x, hx, by simp [hfound, Except.toOption]⟩
      exact if_pos hmem
  refine ⟨.restricted resolve places, run_congr hrun fun x hx => ?_, hstops.congr fun x hx => ?_⟩
  · exact hanswers x (List.mem_append_left _ hx)
  · exact hanswers x (List.mem_append_right _ (List.mem_of_head? hx))

end

/-! ### Compiling -/

/-- Loading of what a root leads to stops somewhere, and if it does with documents, these are in
breadth-first order. -/
theorem exists_stops (r : Resolver) (location : Option Path) {text : String} {document : Document}
    (hparse : Document.parse text none = .ok document) :
    ∃ s outcome, ReflTransGen (Advance r.resolve) (.start ⟨none, location, document⟩) s ∧
      s.Stops r.resolve outcome ∧
      loadDocuments r location text = outcome.map (·.map Pending.loaded) ∧
      ∀ documents, outcome = .ok documents →
        BreadthFirst r.resolve ⟨none, location, document⟩ documents := by
  have hfinite := (r.finite_placesFrom ⟨none, location, document⟩).image Path.steps
  obtain ⟨stage, outcome, hrounds, hends⟩ := exists_ends (acc_start hfinite)
  obtain ⟨s, hrun, hstops⟩ := stops_of_run hrounds hends
  refine ⟨s, outcome, hrun, hstops, loadDocuments_of_run hparse hrounds hends, ?_⟩
  rintro documents rfl
  obtain _ | _ := hends
  exact (found_of_run hrounds).breadthFirst

namespace SchemaSet

variable {r : Resolver} {location : Option Path} {text : String}

theorem ofRoot_of_loadDocuments {outcome : Except SchemaSetError (List Pending)}
    (h : loadDocuments r location text = outcome.map (·.map Pending.loaded)) :
    ofRoot r location text =
      outcome.bind fun documents => ofDocuments (documents.map Pending.loaded) := by
  rw [ofRoot, h]
  cases outcome <;> rfl

/-- What a root comes to is settled where its requests stop. -/
theorem ofRoot_of_stops {document : Document} {s : Progress}
    {outcome : Except SchemaSetError (List Pending)}
    (hparse : Document.parse text none = .ok document)
    (hrun : ReflTransGen (Advance r.resolve) (.start ⟨none, location, document⟩) s)
    (hstops : s.Stops r.resolve outcome) :
    ofRoot r location text =
      outcome.bind fun documents => ofDocuments (documents.map Pending.loaded) := by
  obtain ⟨t, outcome', hrun', hstops', hload, -⟩ := exists_stops r location hparse
  obtain rfl := hstops.eq_of_run (hstops'.run_of_run hrun' hrun)
  obtain rfl := hstops.eq hstops'
  exact ofRoot_of_loadDocuments hload

theorem exists_fault_of_ofDocuments {documents : List LoadedDocument} {e : SchemaSetError}
    (h : ofDocuments documents = .error e) :
    ∃ fault, e = .faulty fault ∧ (Catalog.mk documents).fault = some fault := by
  unfold ofDocuments at h
  split at h
  · next fault hfault =>
    cases h
    exact ⟨fault, rfl, hfault⟩
  · cases h

/-- What is wrong with documents is wrong with them wherever they stand. -/
theorem ofDocuments_eq_error_congr {documents documents' : List LoadedDocument} {e : SchemaSetError}
    (h : ofDocuments documents = .error e)
    (hsame : documents'.map (·.document) = documents.map (·.document)) :
    ofDocuments documents' = .error e := by
  obtain ⟨fault, rfl, hfault⟩ := exists_fault_of_ofDocuments h
  exact ofDocuments_of_fault ((Catalog.fault_congr hsame).trans hfault)

/-- What a root comes to depends on the answers to the requests up to the first failure only. -/
theorem ofRoot_congr {r' : Resolver} {document : Document} {s : Progress}
    {outcome : Except SchemaSetError (List Pending)}
    (hparse : Document.parse text none = .ok document)
    (hrun : ReflTransGen (Advance r.resolve) (.start ⟨none, location, document⟩) s)
    (hstops : s.Stops r.resolve outcome)
    (hmet : ∀ x ∈ s.met, x.AnsweredAlike r.resolve r'.resolve)
    (hahead : ∀ x ∈ s.ahead.head?, x.AnsweredAlike r.resolve r'.resolve) :
    ofRoot r' location text = ofRoot r location text := by
  rw [ofRoot_of_stops hparse hrun hstops]
  exact ofRoot_of_stops hparse (run_congr hrun hmet) (hstops.congr hahead)

/-- A root that is refused is the error before anything else is. From any other root there is one
run of requests, and the error is that of the first request which fails. A fault of the documents is
the error only if none fails: then whatever the documents write leads to one of them, and the fault
is theirs wherever they stand. -/
theorem ofRoot_firstFailure (r : Resolver) (location : Option Path) (text : String) :
    (∀ cause, Document.parse text none = .error cause →
      ofRoot r location text = .error (.document location cause) ∧
      (SchemaSetError.document none cause).message =
        "XSD validation error: schema location: <root>: " ++ cause.message) ∧
    ∀ document, Document.parse text none = .ok document →
      ∃ s outcome, ReflTransGen (Advance r.resolve) (.start ⟨none, location, document⟩) s ∧
        s.Stops r.resolve outcome ∧ s.Sound r.resolve ⟨none, location, document⟩ ∧
        (∀ t, ReflTransGen (Advance r.resolve) (.start ⟨none, location, document⟩) t →
          ReflTransGen (Advance r.resolve) t s) ∧
        ofRoot r location text =
          (outcome.bind fun documents => ofDocuments (documents.map Pending.loaded)) ∧
        (r.RefusesLocations → ∀ fault, ofRoot r location text = .error (.faulty fault) →
          outcome = .ok s.documents ∧
          (∀ x ∈ requests s.documents, ∃ found, r.resolve x.base x.location = .ok found ∧
            Occupied s.documents found.location) ∧
          (Coherent r.resolve → ∀ v, Reachable r.resolve ⟨none, location, document⟩ v →
            Occupied s.documents v.found.location) ∧
          ∀ documents, documents.map (·.document) = s.documents.map (·.document) →
            ofDocuments documents = .error (.faulty fault)) := by
  refine ⟨fun cause h => ?_, fun document hparse => ?_⟩
  · rw [ofRoot, loadDocuments, h]
    exact ⟨rfl, rfl⟩
  obtain ⟨s, outcome, hrun, hstops, hload, hordered⟩ := exists_stops r location hparse
  have hsound := sound_of_run hrun
  have hroot := ofRoot_of_loadDocuments hload
  refine ⟨s, outcome, hrun, hstops, hsound, fun t ht => hstops.run_of_run hrun ht, hroot, ?_⟩
  intro hrefuses fault hfault
  rw [hroot] at hfault
  cases hstops with
  | failed h =>
    cases hfault
    cases h with
    | unresolved h => rcases hrefuses _ _ _ h with ⟨path, heq⟩ | ⟨written, heq⟩ <;> cases heq
  | @complete documents met =>
    have hmet : requests documents = met := by simpa using hsound.order
    refine ⟨rfl, fun x hx => hsound.resolved x (hmet ▸ hx), fun hc v hv => ?_, ?_⟩
    · exact (hordered documents rfl).complete hc hv
    · intro documents' hsame
      refine ofDocuments_eq_error_congr hfault ?_
      rw [hsame, List.map_map]
      rfl

/-- A document that includes an order and what is not there. -/
def branching : String :=
  "<schema xmlns=\"http://www.w3.org/2001/XMLSchema\"><include schemaLocation=\"order.xsd\"/>" ++
    "<include schemaLocation=\"gone.xsd\"/></schema>"

/-- An order that includes a text which is no document. -/
def branches : List (String × String) :=
  [("order.xsd", including "broken.xsd"), ("broken.xsd", "<schema")]

/-- A document with an element of no type, which leads to documents that include each other. -/
def dangling : String :=
  "<xs:schema xmlns:xs=\"http://www.w3.org/2001/XMLSchema\">" ++
    "<xs:include schemaLocation=\"shop.xsd\"/><xs:element name=\"price\" type=\"Money\"/></xs:schema>"

/-- What an order includes comes after what is included next to the order. -/
theorem ofRoot_firstFailure_branching :
    (∃ cause, Document.parse "<schema" none = .error cause ∧
      compile "<schema" (.ofTexts branches) = .error (.document none cause)) ∧
    (∃ document s, Document.parse branching none = .ok document ∧
      ReflTransGen (Advance (Resolver.ofTexts branches).resolve) (.start ⟨none, none, document⟩) s ∧
      s.Stops (Resolver.ofTexts branches).resolve (.error (.unsupportedLocation "gone.xsd")) ∧
      compile branching (.ofTexts branches) = .error (.unsupportedLocation "gone.xsd")) ∧
    ∃ document s, Document.parse dangling none = .ok document ∧
      (Resolver.ofTexts circular).RefusesLocations ∧
      compile dangling (.ofTexts circular) =
        .error (.faulty (.unresolved ⟨.type, ⟨none, "Money"⟩⟩)) ∧
      ReflTransGen (Advance (Resolver.ofTexts circular).resolve) (.start ⟨none, none, document⟩) s ∧
      (∀ x ∈ requests s.documents, ∃ found,
        (Resolver.ofTexts circular).resolve x.base x.location = .ok found ∧
        Occupied s.documents found.location) ∧
      ∀ v, Reachable (Resolver.ofTexts circular).resolve ⟨none, none, document⟩ v →
        Occupied s.documents v.found.location := by
  have hbranching : compile branching (.ofTexts branches) =
      .error (.unsupportedLocation "gone.xsd") :=
    error_of_map_eq_error (f := fun _ => ()) (by decide +kernel)
  have hdangling : compile dangling (.ofTexts circular) =
      .error (.faulty (.unresolved ⟨.type, ⟨none, "Money"⟩⟩)) :=
    error_of_map_eq_error (f := fun _ => ()) (by decide +kernel)
  refine ⟨?_, ?_, ?_⟩
  · have hrefused : (Document.parse "<schema" none).toOption.isNone := by decide +kernel
    cases hparse : Document.parse "<schema" none with
    | error cause => exact ⟨cause, rfl, ((ofRoot_firstFailure _ _ _).1 cause hparse).1⟩
    | ok document =>
      rw [hparse] at hrefused
      cases hrefused
  · obtain ⟨hrefused, hread⟩ := ofRoot_firstFailure (.ofTexts branches) none branching
    cases hparse : Document.parse branching none with
    | error cause => cases (hrefused cause hparse).1.symm.trans hbranching
    | ok document =>
      obtain ⟨s, outcome, hrun, hstops, -, -, hroot, -⟩ := hread document hparse
      refine ⟨document, s, rfl, hrun, ?_, hbranching⟩
      have hroot := hbranching.symm.trans hroot
      cases outcome with
      | error e =>
        cases hroot
        exact hstops
      | ok documents =>
        obtain ⟨fault, heq, -⟩ := exists_fault_of_ofDocuments hroot.symm
        cases heq
  · obtain ⟨hrefused, hread⟩ := ofRoot_firstFailure (.ofTexts circular) none dangling
    cases hparse : Document.parse dangling none with
    | error cause => cases (hrefused cause hparse).1.symm.trans hdangling
    | ok document =>
      obtain ⟨s, outcome, hrun, -, -, -, -, hfaulty⟩ := hread document hparse
      have hrefuses := Resolver.refusesLocations_ofTexts circular
      obtain ⟨-, hresolved, hreachable, -⟩ := hfaulty hrefuses _ hdangling
      exact ⟨document, s, rfl, hrefuses, hdangling, hrun, hresolved,
        hreachable (Resolver.coherent_ofTexts (by decide +kernel))⟩

end SchemaSet

end SchemaShapes
