import SchemaShapes.Proofs.Traversal
import SchemaShapes.SchemaSet.Loading

/-! Discovery of documents. The links of a document make visits, one for each location that is
written, and of all visits those count that lead to a place for the first time. Following the links
of a document loads what its first visits find, in their order and for the namespace that they pass
on. -/
namespace SchemaShapes

open File (Found Path)
open Schema (Document Link)

/-! ### Visits -/

/-- What a link leads to, and the namespace that is passed on to it. -/
structure Visit where
  found : Found
  passedOn : Option String

/-- The visit that a link makes if it has a location that leads somewhere. -/
def Schema.Link.visit? (resolve : Resolution) (base : Option Path) (ns : Option String) (l : Link) :
    Option Visit :=
  l.location.bind fun location => (resolve base location).toOption.map (⟨·, l.passedOn ns⟩)

/-- The visits of a document with a base. -/
def visitsFrom (resolve : Resolution) (base : Option Path) (d : Document) : List Visit :=
  d.links.filterMap (·.visit? resolve base d.targetNamespace)

/-- The visits that lead to a place which is not loaded, for the first time. -/
def firstVisits (loaded : List Path) : List Visit → List Visit
  | [] => []
  | v :: vs =>
    if isLoaded loaded v.found.location then firstVisits loaded vs
    else v :: firstVisits (v.found.location :: loaded) vs

/-- The places that are loaded after visits. -/
def loadedAfter (loaded : List Path) (vs : List Visit) : List Path :=
  ((firstVisits loaded vs).map (·.found.location)).reverse ++ loaded

/-- A document is what a visit found, read for the namespace that was passed on. -/
def Visit.Loads (v : Visit) (d : LoadedDocument) : Prop :=
  d.location = some v.found.location ∧
    Document.parse v.found.text v.passedOn = .ok d.document

theorem Visit.Loads.location_eq {v : Visit} {p : Pending} (h : v.Loads p.loaded) :
    p.location = some v.found.location :=
  h.1

theorem mem_visitsFrom {resolve : Resolution} {base : Option Path} {d : Document} {v : Visit} :
    v ∈ visitsFrom resolve base d ↔ ∃ l ∈ d.links, ∃ location ∈ l.location,
      resolve base location = .ok v.found ∧ v.passedOn = l.passedOn d.targetNamespace := by
  rw [visitsFrom, List.mem_filterMap]
  refine exists_congr fun l => and_congr_right fun _ => ?_
  obtain ⟨found, ns⟩ := v
  cases hl : l.location with
  | none => simp [Link.visit?, hl]
  | some location =>
    cases hr : resolve base location with
    | error e => simp [Link.visit?, hl, hr, Except.toOption]
    | ok g => simp [Link.visit?, hl, hr, Except.toOption, eq_comm]

theorem exists_visit {resolve : Resolution} {base : Option Path} {d : Document} {l : Link}
    {location : String} {found : Found} (hl : l ∈ d.links) (hlocation : location ∈ l.location)
    (h : resolve base location = .ok found) : ∃ v ∈ visitsFrom resolve base d, v.found = found :=
  ⟨⟨found, l.passedOn d.targetNamespace⟩,
    mem_visitsFrom.mpr ⟨l, hl, location, hlocation, h, rfl⟩, rfl⟩

/-! ### First visits -/

theorem Path.same_symm {p q : Path} (h : p.same q) : q.same p := by
  simp only [Path.same, decide_eq_true_eq] at *
  exact h.symm

theorem Path.same_trans {p q r : Path} (h : p.same q) (h' : q.same r) : p.same r := by
  simp only [Path.same, decide_eq_true_eq] at *
  exact h.trans h'

section

variable {loaded : List Path} {v : Visit} {vs ws : List Visit}

theorem isLoaded_iff {p : Path} : isLoaded loaded p ↔ ∃ q ∈ loaded, p.same q := by
  simp [isLoaded]

theorem isLoaded_of_subset {loaded' : List Path} (h : loaded ⊆ loaded') {p : Path}
    (hp : isLoaded loaded p) : isLoaded loaded' p := by
  obtain ⟨q, hq, hsame⟩ := isLoaded_iff.mp hp
  exact isLoaded_iff.mpr ⟨q, h hq, hsame⟩

theorem firstVisits_cons_of_loaded (h : isLoaded loaded v.found.location) :
    firstVisits loaded (v :: vs) = firstVisits loaded vs := by
  rw [firstVisits, if_pos h]

theorem firstVisits_cons_of_new (h : isLoaded loaded v.found.location = false) :
    firstVisits loaded (v :: vs) = v :: firstVisits (v.found.location :: loaded) vs := by
  rw [firstVisits, h, if_neg Bool.false_ne_true]

theorem loadedAfter_cons_of_loaded (h : isLoaded loaded v.found.location) :
    loadedAfter loaded (v :: vs) = loadedAfter loaded vs := by
  rw [loadedAfter, firstVisits_cons_of_loaded h, loadedAfter]

theorem loadedAfter_cons_of_new (h : isLoaded loaded v.found.location = false) :
    loadedAfter loaded (v :: vs) = loadedAfter (v.found.location :: loaded) vs := by
  simp [loadedAfter, firstVisits_cons_of_new h]

theorem subset_loadedAfter : loaded ⊆ loadedAfter loaded vs := by
  simp [loadedAfter]

theorem firstVisits_append :
    firstVisits loaded (vs ++ ws) = firstVisits loaded vs ++ firstVisits (loadedAfter loaded vs) ws := by
  induction vs generalizing loaded with
  | nil => rfl
  | cons v vs ih =>
    cases h : isLoaded loaded v.found.location with
    | true =>
      rw [List.cons_append, firstVisits_cons_of_loaded h, firstVisits_cons_of_loaded h, ih,
        loadedAfter_cons_of_loaded h]
    | false =>
      rw [List.cons_append, firstVisits_cons_of_new h, firstVisits_cons_of_new h, ih,
        loadedAfter_cons_of_new h, List.cons_append]

theorem loadedAfter_append :
    loadedAfter loaded (vs ++ ws) = loadedAfter (loadedAfter loaded vs) ws := by
  rw [loadedAfter, firstVisits_append, List.map_append, List.reverse_append, List.append_assoc]
  rfl

theorem firstVisits_subset : firstVisits loaded vs ⊆ vs := by
  induction vs generalizing loaded with
  | nil => simp [firstVisits]
  | cons v vs ih =>
    rw [firstVisits]
    split
    · exact List.subset_cons_of_subset _ ih
    · exact List.cons_subset_cons _ ih

/-- Wherever a visit leads, that place is loaded afterwards. -/
theorem isLoaded_after (loaded : List Path) (h : v ∈ vs) :
    isLoaded (loadedAfter loaded vs) v.found.location := by
  induction vs generalizing loaded with
  | nil => cases h
  | cons w vs ih =>
    cases hw : isLoaded loaded w.found.location with
    | true =>
      rw [loadedAfter_cons_of_loaded hw]
      rcases List.mem_cons.mp h with rfl | h
      · exact isLoaded_of_subset subset_loadedAfter hw
      · exact ih _ h
    | false =>
      rw [loadedAfter_cons_of_new hw]
      rcases List.mem_cons.mp h with rfl | h
      · exact isLoaded_of_subset subset_loadedAfter
          (isLoaded_iff.mpr ⟨_, List.mem_cons_self, by simp [Path.same]⟩)
      · exact ih _ h

/-- First visits lead to places that differ from each other and from those loaded before. -/
theorem pairwise_firstVisits (loaded : List Path) (vs : List Visit) :
    (∀ v ∈ firstVisits loaded vs, isLoaded loaded v.found.location = false) ∧
      (firstVisits loaded vs).Pairwise fun v w => ¬w.found.location.same v.found.location := by
  induction vs generalizing loaded with
  | nil => simp [firstVisits]
  | cons v vs ih =>
    rw [firstVisits]
    split
    · exact ih loaded
    · rename_i hv
      obtain ⟨hnew, hpairwise⟩ := ih (v.found.location :: loaded)
      have hboth : ∀ w ∈ firstVisits (v.found.location :: loaded) vs,
          ¬w.found.location.same v.found.location ∧ isLoaded loaded w.found.location = false := by
        intro w hw
        simpa [isLoaded] using hnew w hw
      refine ⟨List.forall_mem_cons.mpr ⟨by simpa using hv, fun w hw => (hboth w hw).2⟩, ?_⟩
      exact List.pairwise_cons.mpr ⟨fun w hw => (hboth w hw).1, hpairwise⟩

/-- The first of some visits that leads to a place is a first visit. -/
theorem mem_firstVisits_of_find? {p : Path} (hp : isLoaded loaded p = false)
    (h : vs.find? (fun v => v.found.location.same p) = some v) : v ∈ firstVisits loaded vs := by
  induction vs generalizing loaded with
  | nil => cases h
  | cons w vs ih =>
    by_cases hw : w.found.location.same p
    · obtain rfl : w = v := by simpa [hw] using h
      have hsteps : w.found.location.steps = p.steps := by simpa [Path.same] using hw
      have hnew : isLoaded loaded w.found.location = false := by
        simpa [isLoaded, Path.same, hsteps] using hp
      rw [firstVisits_cons_of_new hnew]
      exact List.mem_cons_self
    · have h : vs.find? (fun v => v.found.location.same p) = some v := by simpa [hw] using h
      rw [firstVisits]
      split
      · exact ih hp h
      · have hother : p.same w.found.location = false :=
          Bool.eq_false_iff.mpr fun h => hw (Path.same_symm h)
        have hp' : isLoaded (w.found.location :: loaded) p = false := by
          rw [isLoaded, List.any_cons, hother, Bool.false_or]
          exact hp
        exact List.mem_cons_of_mem _ (ih hp' h)

end

/-! ### Following links -/

section

variable {resolve : Resolution} {base : Option Path} {ns : Option String} {l : Link}

theorem Link.visit?_of_none (h : l.location = none) : l.visit? resolve base ns = none := by
  simp [Link.visit?, h]

theorem Link.visit?_of_found (ns : Option String) {location : String} {found : Found}
    (h : l.location = some location) (hfound : resolve base location = .ok found) :
    ∃ v : Visit, l.visit? resolve base ns = some v ∧ v.found = found ∧
      v.passedOn = l.passedOn ns :=
  ⟨⟨found, l.passedOn ns⟩, by simp [Link.visit?, h, hfound, Except.toOption], rfl, rfl⟩

/-- A document that is read to be waiting is what the visit found, and its links are seen from its
own place. -/
theorem Pending.loads_of_ofFound {v : Visit} {p : Pending}
    (h : Pending.ofFound v.found v.passedOn = .ok p) :
    v.Loads p.loaded ∧ p.base = p.location := by
  unfold Pending.ofFound at h
  split at h
  · cases h
  · rename_i document hparse
    cases h
    exact ⟨⟨rfl, hparse⟩, rfl⟩

/-- Following the links of a document resolves every location that is written and loads what the
first visits find. -/
theorem discover_eq_ok {loaded : List Path} {links : List Link} {d : Discovery}
    (h : discover resolve base ns loaded links = .ok d) :
    (∀ l ∈ links, ∀ location ∈ l.location, ∃ found, resolve base location = .ok found) ∧
      List.Forall₂ (fun v p => v.Loads p.loaded ∧ p.base = p.location)
        (firstVisits loaded (links.filterMap (·.visit? resolve base ns))) d.found ∧
      d.loaded = loadedAfter loaded (links.filterMap (·.visit? resolve base ns)) := by
  induction links generalizing loaded d with
  | nil =>
    cases h
    exact ⟨by simp, .nil, rfl⟩
  | cons l rest ih =>
    rw [discover] at h
    split at h
    · rename_i hnone
      obtain ⟨hresolved, hfound, hloaded⟩ := ih h
      rw [List.filterMap_cons_none (Link.visit?_of_none hnone)]
      exact ⟨List.forall_mem_cons.mpr ⟨by simp [hnone], hresolved⟩, hfound, hloaded⟩
    · rename_i location hlocation
      split at h
      · cases h
      rename_i found hresolve
      have hl : ∀ location ∈ l.location, ∃ found, resolve base location = .ok found := by
        rw [hlocation]
        exact fun _ h => (Option.some.inj h) ▸ ⟨found, hresolve⟩
      obtain ⟨v, hvisit, rfl, hns⟩ := Link.visit?_of_found ns hlocation hresolve
      rw [List.filterMap_cons_some hvisit]
      split at h
      · rename_i hold
        obtain ⟨hresolved, hfound, hloaded⟩ := ih h
        refine ⟨List.forall_mem_cons.mpr ⟨hl, hresolved⟩, ?_, ?_⟩
        · rw [firstVisits_cons_of_loaded hold]
          exact hfound
        · rw [loadedAfter_cons_of_loaded hold, hloaded]
      · rename_i hnew
        rw [Bool.not_eq_true] at hnew
        split at h
        · cases h
        rename_i p hp
        rw [← hns] at hp
        cases hd : discover resolve base ns (v.found.location :: loaded) rest with
        | error e =>
          rw [hd] at h
          cases h
        | ok e =>
          rw [hd] at h
          cases h
          obtain ⟨hresolved, hfound, hloaded⟩ := ih hd
          refine ⟨List.forall_mem_cons.mpr ⟨hl, hresolved⟩, ?_, ?_⟩
          · rw [firstVisits_cons_of_new hnew]
            exact .cons (Pending.loads_of_ofFound hp) hfound
          · rw [loadedAfter_cons_of_new hnew]
            exact hloaded

end

end SchemaShapes
