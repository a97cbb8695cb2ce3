import SchemaShapes.Proofs.Schema.Items
import SchemaShapes.Proofs.SchemaSet.Coherence
import SchemaShapes.Proofs.SchemaSet.Rounds
import SchemaShapes.SchemaSet.Basic

/-! The order of loading. The documents of a schema set are a root and then, in breadth-first order,
what its links lead to: each document is found by the first of all visits that lead to its place,
made by a document before it, and is read for the namespace which that visit passes on. Nothing that
is linked to is missing, and no place is there twice. -/
namespace SchemaShapes

open File (Path)
open Relation (ReflTransGen)
open Schema (Document)

/-! ### Documents in their order -/

/-- The visits of documents, one document after the other. -/
def visits (resolve : Resolution) (documents : List Pending) : List Visit :=
  documents.flatMap fun p => visitsFrom resolve p.base p.document

/-- Documents in the breadth-first order of their discovery, each with the base that its locations
are seen from. -/
structure BreadthFirst (resolve : Resolution) (root : Pending) (documents : List Pending) : Prop where
  /-- The root is followed by what the first visits load, in their order, each document with its own
  place as the base. -/
  order : ∃ rest, documents = root :: rest ∧
    List.Forall₂ (fun v p => v.Loads p.loaded ∧ p.base = p.location)
      (firstVisits root.location.toList (visits resolve documents)) rest
  /-- A document is loaded by a visit of a document before it. -/
  earlier : ∀ before p, before ++ [p] <+: documents → before ≠ [] →
    ∃ v ∈ firstVisits root.location.toList (visits resolve before),
      v.Loads p.loaded ∧ p.base = p.location
  /-- Every location that is written in a document leads somewhere. -/
  resolved : ∀ p ∈ documents, ∀ l ∈ p.document.links, ∀ location ∈ l.location,
    ∃ found, resolve p.base location = .ok found
  /-- Every visit leads to the place of a document. -/
  closed : ∀ v ∈ visits resolve documents, ∃ p ∈ documents, ∃ place ∈ p.location,
    v.found.location.same place
  /-- No two documents have the same place. -/
  once : (documents.filterMap (·.location)).Pairwise fun place other => ¬other.same place

section

variable {resolve : Resolution} {root : Pending} {s t : Stage}

/-- What the rounds have found: the root, and what the first visits of the documents load whose
links have been followed. -/
structure Stage.Found (resolve : Resolution) (root : Pending) (s : Stage) : Prop where
  order : ∃ rest, s.followed ++ s.waiting = root :: rest ∧
    List.Forall₂ (fun v p => v.Loads p.loaded ∧ p.base = p.location)
      (firstVisits root.location.toList (visits resolve s.followed)) rest
  earlier : ∀ before p, before ++ [p] <+: s.followed → before ≠ [] →
    ∃ v ∈ firstVisits root.location.toList (visits resolve before),
      v.Loads p.loaded ∧ p.base = p.location
  resolved : ∀ p ∈ s.followed, ∀ l ∈ p.document.links, ∀ location ∈ l.location,
    ∃ found, resolve p.base location = .ok found
  loaded : s.loaded = loadedAfter root.location.toList (visits resolve s.followed)

theorem Stage.found_start : (Stage.start root).Found resolve root where
  order := ⟨[], rfl, .nil⟩
  earlier := by simp [Stage.start]
  resolved := by simp [Stage.start]
  loaded := rfl

theorem Stage.Found.exists_visit {p : Pending} {waiting followed : List Pending}
    {loaded : List Path} (hs : Stage.Found resolve root ⟨loaded, p :: waiting, followed⟩)
    (hne : followed ≠ []) :
    ∃ v ∈ firstVisits root.location.toList (visits resolve followed),
      v.Loads p.loaded ∧ p.base = p.location := by
  obtain ⟨rest, hrest, hfirst⟩ := hs.order
  obtain ⟨q, followed, rfl⟩ := List.exists_cons_of_ne_nil hne
  have hp : p ∈ rest := by
    rw [← (List.cons.inj hrest).2]
    exact List.mem_append_right _ List.mem_cons_self
  exact exists_of_mem_right hfirst hp

theorem Round.found (h : Round resolve s t) (hs : s.Found resolve root) :
    t.Found resolve root := by
  obtain @⟨loaded, p, waiting, followed, d, hd⟩ := h
  obtain ⟨hresolved, hfound, hloaded⟩ := discover_eq_ok hd
  have hvisits : visits resolve (followed ++ [p]) =
      visits resolve followed ++ visitsFrom resolve p.base p.document := by
    simp [visits]
  rw [show loaded = _ from hs.loaded] at hfound hloaded
  refine ⟨?_, ?_, ?_, ?_⟩
  · obtain ⟨rest, hrest, hfirst⟩ := hs.order
    refine ⟨rest ++ d.found, ?_, ?_⟩
    · rw [← List.cons_append, ← hrest]
      simp
    · rw [hvisits, firstVisits_append]
      exact List.rel_append hfirst hfound
  · intro before q hprefix hne
    rcases List.prefix_concat_iff.mp hprefix with heq | hprefix
    · obtain ⟨rfl, hlast⟩ := List.append_inj' heq rfl
      obtain rfl := List.head_eq_of_cons_eq hlast
      exact hs.exists_visit hne
    · exact hs.earlier before q hprefix hne
  · intro q hq
    rcases List.mem_append.mp hq with hq | hq
    · exact hs.resolved q hq
    · obtain rfl := List.mem_singleton.mp hq
      exact hresolved
  · rw [hloaded, hvisits, loadedAfter_append]
    rfl

theorem found_of_run (h : ReflTransGen (Round resolve) (Stage.start root) s) :
    s.Found resolve root := by
  induction h with
  | refl => exact Stage.found_start
  | tail _ hround ih => exact hround.found ih

/-- The places of documents in their order: that of the root, and those of the first visits. -/
theorem filterMap_location (root : Pending) {vs : List Visit} {rest : List Pending}
    (h : List.Forall₂ (fun v p => v.Loads p.loaded ∧ p.base = p.location) vs rest) :
    (root :: rest).filterMap (·.location) = root.location.toList ++ vs.map (·.found.location) := by
  have hrest : rest.filterMap (·.location) = vs.map (·.found.location) := by
    induction h with
    | nil => rfl
    | cons hloads _ ih =>
      rw [List.filterMap_cons_some hloads.1.location_eq, ih, List.map_cons]
  cases hroot : root.location with
  | none => rw [List.filterMap_cons_none hroot, hrest, Option.toList_none, List.nil_append]
  | some place =>
    rw [List.filterMap_cons_some hroot, hrest, Option.toList_some, List.singleton_append]

/-- When no document waits any more, those that were followed are in breadth-first order. -/
theorem Stage.Found.breadthFirst {loaded : List Path} {documents : List Pending}
    (hs : Stage.Found resolve root ⟨loaded, [], documents⟩) :
    BreadthFirst resolve root documents := by
  obtain ⟨rest, hrest, hfirst⟩ := hs.order
  simp only [List.append_nil] at hrest
  have hplaces := filterMap_location root hfirst
  rw [← hrest] at hplaces
  obtain ⟨hnew, hpairwise⟩ :=
    pairwise_firstVisits root.location.toList (visits resolve documents)
  refine ⟨⟨rest, hrest, hfirst⟩, hs.earlier, hs.resolved, fun v hv => ?_, ?_⟩
  · obtain ⟨place, hplace, hsame⟩ :=
      isLoaded_iff.mp (isLoaded_after root.location.toList hv)
    have hmem : place ∈ documents.filterMap (·.location) := by
      rw [hplaces]
      simpa [loadedAfter, or_comm] using hplace
    obtain ⟨p, hp, hlocation⟩ := List.mem_filterMap.mp hmem
    exact ⟨p, hp, place, hlocation, hsame⟩
  · rw [hplaces, List.pairwise_append, List.pairwise_map]
    refine ⟨?_, hpairwise, ?_⟩
    · cases root.location <;> simp
    · intro place hplace other hother hsame
      obtain ⟨v, hv, rfl⟩ := List.mem_map.mp hother
      exact Bool.eq_false_iff.mp (hnew v hv) (isLoaded_iff.mpr ⟨place, hplace, hsame⟩)

/-! ### Reachable documents -/

variable {documents : List Pending}

/-- Every document but the root is what a reachable visit loads. -/
theorem BreadthFirst.reachable (h : BreadthFirst resolve root documents) :
    ∀ p ∈ documents, p = root ∨ ∃ v, Reachable resolve root v ∧
      isLoaded root.location.toList v.found.location = false ∧
      v.Loads p.loaded ∧ p.base = p.location := by
  suffices hprefix : ∀ before, before <+: documents → ∀ p ∈ before, p = root ∨ ∃ v,
      Reachable resolve root v ∧ isLoaded root.location.toList v.found.location = false ∧
        v.Loads p.loaded ∧ p.base = p.location from hprefix documents (List.prefix_refl _)
  intro before
  induction before using List.reverseRecOn with
  | nil => simp
  | append_singleton before p ih =>
    intro hprefix q hq
    have hbefore := ih ((List.prefix_append _ _).trans hprefix)
    rcases List.mem_append.mp hq with hq | hq
    · exact hbefore q hq
    obtain rfl := List.mem_singleton.mp hq
    by_cases hne : before = []
    · obtain ⟨rest, hrest, -⟩ := h.order
      rw [hne, hrest] at hprefix
      exact .inl (List.cons_prefix_cons.mp hprefix).1
    -- The visit that loads the document is made by one before it, which is reached by induction.
    obtain ⟨v, hv, hloads⟩ := h.earlier before q hprefix hne
    obtain ⟨u, hu, hvu⟩ := List.mem_flatMap.mp (firstVisits_subset hv)
    refine .inr ⟨v, ?_, (pairwise_firstVisits _ _).1 v hv, hloads⟩
    rcases hbefore u hu with rfl | ⟨w, hw, hroot, hloads', hbase⟩
    · exact .direct hvu
    · rw [hbase, hloads'.location_eq] at hvu
      exact .through hw hroot hloads'.2 hvu

/-- Every place that is reachable is that of a document. -/
theorem BreadthFirst.complete (h : BreadthFirst resolve root documents) (hc : Coherent resolve)
    {v : Visit} (hv : Reachable resolve root v) :
    ∃ p ∈ documents, ∃ place ∈ p.location, v.found.location.same place := by
  obtain ⟨rest, hrest, -⟩ := h.order
  induction hv with
  | direct hv =>
    exact h.closed _ (List.mem_flatMap.mpr ⟨root, by simp [hrest], hv⟩)
  | @through v w d hv hroot hd hw ih =>
    obtain ⟨p, hp, place, hplace, hsame⟩ := ih
    rcases h.reachable p hp with rfl | ⟨u, hu, -, hloads, hbase⟩
    · have hloaded : isLoaded p.location.toList v.found.location :=
        isLoaded_iff.mpr ⟨place, Option.mem_toList.mpr hplace, hsame⟩
      exact absurd hloaded (Bool.eq_false_iff.mp hroot)
    obtain rfl : u.found.location = place := Option.some.inj (hloads.location_eq.symm.trans hplace)
    obtain ⟨base, location, hfound⟩ := hv.exists_resolve
    obtain ⟨base', location', hfound'⟩ := hu.exists_resolve
    have htext := hc.text _ _ _ _ _ _ hfound hfound' hsame
    have hlinks : d.links = p.document.links := Schema.links_eq_of_parse (htext ▸ hd) hloads.2
    -- What the reachable document links to, the loaded one at its place links to as well.
    obtain ⟨l, hl, written, hwritten, hto, -⟩ := mem_visitsFrom.mp hw
    obtain ⟨found, hto'⟩ := h.resolved p hp l (hlinks ▸ hl) written hwritten
    obtain ⟨x, hx, rfl⟩ := exists_visit (hlinks ▸ hl) hwritten hto'
    obtain ⟨q, hq, place, hplace, hsame'⟩ := h.closed x (List.mem_flatMap.mpr ⟨p, hp, hx⟩)
    rw [hbase, hloads.location_eq] at hto'
    exact ⟨q, hq, place, hplace,
      Path.same_trans (hc.place _ _ _ _ _ hsame hto hto') hsame'⟩

/-! ### Loading -/

theorem loadDocuments_of_run {r : Resolver} {location : Option Path} {text : String}
    {document : Document} {outcome : Except SchemaSetError (List Pending)}
    (hparse : Document.parse text none = .ok document)
    (hrun : ReflTransGen (Round r.resolve) (.start ⟨none, location, document⟩) s)
    (hends : Ends r.resolve s outcome) :
    loadDocuments r location text = outcome.map (·.map Pending.loaded) := by
  rw [← loadAll_of_run hrun hends, loadDocuments, hparse]
  simp only [Stage.start]
  cases loadAll r location.toList [⟨none, location, document⟩] <;> simp [Except.map]

/-- The documents of a set are those that are loaded for it. -/
theorem loadDocuments_of_ofRoot {r : Resolver} {location : Option Path} {text : String}
    {set : SchemaSet} (h : SchemaSet.ofRoot r location text = .ok set) :
    loadDocuments r location text = .ok set.documents := by
  obtain ⟨documents, hdocuments, h⟩ := exists_of_bind_eq_ok h
  unfold SchemaSet.ofDocuments at h
  split at h
  · cases h
  · cases h
    exact hdocuments

/-- The documents of a set are in breadth-first order. -/
theorem breadthFirst_of_ofRoot {r : Resolver} {location : Option Path} {text : String}
    {set : SchemaSet} (h : SchemaSet.ofRoot r location text = .ok set) :
    ∃ document documents, Document.parse text none = .ok document ∧
      BreadthFirst r.resolve ⟨none, location, document⟩ documents ∧
      set.documents = documents.map Pending.loaded := by
  have hload := loadDocuments_of_ofRoot h
  cases hparse : Document.parse text none with
  | error e =>
    rw [loadDocuments, hparse] at hload
    cases hload
  | ok document =>
    have hfinite := (r.finite_placesFrom ⟨none, location, document⟩).image Path.steps
    obtain ⟨s, outcome, hrun, hends⟩ := exists_ends (acc_start hfinite)
    rw [loadDocuments_of_run hparse hrun hends] at hload
    cases hends with
    | failed => cases hload
    | @complete loaded documents =>
      exact ⟨document, documents, rfl, (found_of_run hrun).breadthFirst,
        (Except.ok.inj hload).symm⟩

/-- No document is missing that files lead to, however its path is written. -/
theorem exists_document_of_ofFiles {files : File.Tree} {folder location : Option Path}
    {text : String} {set : SchemaSet}
    (h : SchemaSet.ofRoot (.ofFiles files.system folder) location text = .ok set) :
    ∃ document, Document.parse text none = .ok document ∧
      ∀ v, Reachable (Resolver.ofFiles files.system folder).resolve ⟨none, location, document⟩ v →
        ∃ d ∈ set.documents, ∃ place ∈ d.location, v.found.location.same place := by
  obtain ⟨document, documents, hparse, horder, hset⟩ := breadthFirst_of_ofRoot h
  refine ⟨document, hparse, fun v hv => ?_⟩
  obtain ⟨p, hp, hplace⟩ := horder.complete (Resolver.coherent_ofFiles files folder) hv
  rw [hset]
  exact ⟨p.loaded, List.mem_map_of_mem hp, hplace⟩

/-- Loading the documents that a root leads to comes to an end as long as these have finitely many
places, and what it loads is the root followed by every reachable document in breadth-first order,
each once. -/
theorem documents_breadthFirst {location : Option Path} {text : String} {document : Document}
    (hparse : Document.parse text none = .ok document)
    (hfinite : (Path.steps '' placesFrom resolve ⟨none, location, document⟩).Finite) :
    Acc (fun t s => Round resolve s t) (.start ⟨none, location, document⟩) ∧
      ∃ s outcome, ReflTransGen (Round resolve) (.start ⟨none, location, document⟩) s ∧
        Ends resolve s outcome ∧
        (∀ documents, outcome = .ok documents →
          BreadthFirst resolve ⟨none, location, document⟩ documents ∧
          (∀ p ∈ documents, p = ⟨none, location, document⟩ ∨
            ∃ v, Reachable resolve ⟨none, location, document⟩ v ∧ v.Loads p.loaded) ∧
          (Coherent resolve → ∀ v, Reachable resolve ⟨none, location, document⟩ v →
            ∃ p ∈ documents, ∃ place ∈ p.location, v.found.location.same place)) ∧
        ∀ r : Resolver, r.resolve = resolve →
          loadDocuments r location text = outcome.map (·.map Pending.loaded) ∧
          ∀ set, SchemaSet.ofRoot r location text = .ok set →
            ∃ documents, outcome = .ok documents ∧
              set.documents = documents.map Pending.loaded := by
  have hacc := acc_start hfinite
  obtain ⟨s, outcome, hrun, hends⟩ := exists_ends hacc
  refine ⟨hacc, s, outcome, hrun, hends, ?_, ?_⟩
  · rintro documents rfl
    obtain _ | _ := hends
    have horder := (found_of_run hrun).breadthFirst
    refine ⟨horder, fun p hp => ?_, fun hc v hv => horder.complete hc hv⟩
    exact (horder.reachable p hp).imp id fun ⟨v, hv, _, hloads, _⟩ => ⟨v, hv, hloads⟩
  · rintro r rfl
    have hload := loadDocuments_of_run hparse hrun hends
    refine ⟨hload, fun set hset => ?_⟩
    rw [loadDocuments_of_ofRoot hset] at hload
    cases outcome with
    | error e => cases hload
    | ok documents => exact ⟨documents, rfl, Except.ok.inj hload⟩

end

/-- A document that includes another one. -/
def including (location : String) : String :=
  "<schema xmlns=\"http://www.w3.org/2001/XMLSchema\"><include schemaLocation=\"" ++ location ++
    "\"/></schema>"

/-- Two documents that include each other. -/
def circular : List (String × String) :=
  [("shop.xsd", including "order.xsd"), ("order.xsd", including "shop.xsd")]

theorem documents_breadthFirst_circular : ∃ document documents,
    Document.parse (including "order.xsd") none = .ok document ∧
    (Path.steps '' placesFrom (Resolver.ofTexts circular).resolve
      ⟨none, some ⟨"shop.xsd"⟩, document⟩).Finite ∧
    BreadthFirst (Resolver.ofTexts circular).resolve ⟨none, some ⟨"shop.xsd"⟩, document⟩ documents ∧
    (∀ v, Reachable (Resolver.ofTexts circular).resolve ⟨none, some ⟨"shop.xsd"⟩, document⟩ v →
      ∃ p ∈ documents, ∃ place ∈ p.location, v.found.location.same place) ∧
    documents.map (·.location) = [some ⟨"shop.xsd"⟩, some ⟨"order.xsd"⟩] := by
  have hlocations : (loadDocuments (.ofTexts circular) (some ⟨"shop.xsd"⟩)
      (including "order.xsd")).toOption.map (·.map (·.location)) =
      some [some ⟨"shop.xsd"⟩, some ⟨"order.xsd"⟩] := by
    decide +kernel
  obtain ⟨loaded, hload, hlocations⟩ := Option.map_eq_some_iff.mp hlocations
  have hload := eq_ok_of_toOption hload
  have hcoherent : Coherent (Resolver.ofTexts circular).resolve :=
    Resolver.coherent_ofTexts (by decide +kernel)
  cases hparse : Document.parse (including "order.xsd") none with
  | error e =>
    rw [loadDocuments, hparse] at hload
    cases hload
  | ok document =>
    have hfinite :=
      ((Resolver.ofTexts circular).finite_placesFrom ⟨none, some ⟨"shop.xsd"⟩, document⟩).image
        Path.steps
    obtain ⟨-, s, outcome, -, -, hordered, hloaded⟩ := documents_breadthFirst hparse hfinite
    rw [(hloaded (.ofTexts circular) rfl).1] at hload
    cases outcome with
    | error e => cases hload
    | ok documents =>
      obtain ⟨horder, -, hcomplete⟩ := hordered documents rfl
      cases hload
      rw [List.map_map] at hlocations
      exact ⟨document, documents, rfl, hfinite, horder, hcomplete hcoherent, hlocations⟩

end SchemaShapes
