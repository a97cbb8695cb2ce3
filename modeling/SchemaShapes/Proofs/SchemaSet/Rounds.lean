import Mathlib.Data.Set.Finite.Basic
import Mathlib.Logic.Relation
import SchemaShapes.Proofs.SchemaSet.Discovery

/-! Loading in rounds. A round takes the document that waits longest, follows its links and lets
what they load wait behind the others. As long as the places that a root leads to are finitely many,
whether the documents at them lead back to each other or not, the rounds come to an end, and loading
gives what they end with. -/
namespace SchemaShapes

open File (Path)
open Schema (Document)
open Relation (ReflTransGen)

/-- What loading has come to: the places that are loaded, the documents that wait, and those whose
links have been followed. -/
structure Stage where
  loaded : List Path
  waiting : List Pending
  followed : List Pending

/-- At the start a root waits, the place of which counts as loaded. -/
def Stage.start (root : Pending) : Stage := ⟨root.location.toList, [root], []⟩

/-- A round follows the links of the first document that waits. -/
inductive Round (resolve : Resolution) : Stage → Stage → Prop
  | follow {loaded : List Path} {p : Pending} {waiting followed : List Pending} {d : Discovery}
      (h : discover resolve p.base p.document.targetNamespace loaded p.document.links = .ok d) :
      Round resolve ⟨loaded, p :: waiting, followed⟩ ⟨d.loaded, waiting ++ d.found, followed ++ [p]⟩

/-- Loading ends when no document waits, or at a link that cannot be followed. -/
inductive Ends (resolve : Resolution) : Stage → Except SchemaSetError (List Pending) → Prop
  | complete {loaded : List Path} {followed : List Pending} :
      Ends resolve ⟨loaded, [], followed⟩ (.ok followed)
  | failed {loaded : List Path} {p : Pending} {waiting followed : List Pending} {e : SchemaSetError}
      (h : discover resolve p.base p.document.targetNamespace loaded p.document.links = .error e) :
      Ends resolve ⟨loaded, p :: waiting, followed⟩ (.error e)

section

variable {resolve : Resolution} {s t u : Stage}

/-! ### Runs of rounds -/

/-- A stage is an end, or a round leads on from it. -/
theorem exists_ends_or_round (s : Stage) :
    (∃ outcome, Ends resolve s outcome) ∨ ∃ t, Round resolve s t := by
  obtain ⟨loaded, waiting, followed⟩ := s
  cases waiting with
  | nil => exact .inl ⟨_, .complete⟩
  | cons p waiting =>
    cases h : discover resolve p.base p.document.targetNamespace loaded p.document.links with
    | error e => exact .inl ⟨_, .failed h⟩
    | ok d => exact .inr ⟨_, .follow h⟩

/-- A run that cannot go on for ever comes to an end. -/
theorem exists_ends (h : Acc (fun t s => Round resolve s t) s) :
    ∃ t outcome, ReflTransGen (Round resolve) s t ∧ Ends resolve t outcome := by
  induction h with
  | intro s _ ih =>
    rcases exists_ends_or_round s with ⟨outcome, hends⟩ | ⟨t, hround⟩
    · exact ⟨s, outcome, .refl, hends⟩
    · obtain ⟨u, outcome, hrun, hends⟩ := ih t hround
      exact ⟨u, outcome, .head hround hrun, hends⟩

/-! ### What loading gives -/

/-- Loading gives the documents that the rounds have followed in the end, or their error. -/
theorem loadAll_of_run {r : Resolver} {outcome : Except SchemaSetError (List Pending)}
    (hrun : ReflTransGen (Round r.resolve) s t) (hends : Ends r.resolve t outcome) :
    (loadAll r s.loaded s.waiting).map (s.followed.map Pending.loaded ++ ·) =
      outcome.map (·.map Pending.loaded) := by
  induction hrun using ReflTransGen.head_induction_on with
  | refl =>
    cases hends with
    | complete => simp [loadAll, Except.map]
    | failed h =>
      rw [loadAll]
      split
      · rename_i h'
        rw [h] at h'
        cases h'
        rfl
      · rename_i h'
        rw [h] at h'
        cases h'
  | head hround _ ih =>
    obtain ⟨h⟩ := hround
    rw [← ih, loadAll]
    split
    · rename_i h'
      rw [h] at h'
      cases h'
    · rename_i d h'
      rw [h] at h'
      cases h'
      cases loadAll r _ _ <;> simp [Except.map]

/-! ### The end of the rounds -/

/-- The visits that a root leads to, through documents other than itself. -/
inductive Reachable (resolve : Resolution) (root : Pending) : Visit → Prop
  | direct {v : Visit} (h : v ∈ visitsFrom resolve root.base root.document) :
      Reachable resolve root v
  | through {v w : Visit} {d : Document} (hv : Reachable resolve root v)
      (hroot : isLoaded root.location.toList v.found.location = false)
      (hd : Document.parse v.found.text v.passedOn = .ok d)
      (hw : w ∈ visitsFrom resolve (some v.found.location) d) : Reachable resolve root w

theorem exists_resolve_of_mem {base : Option Path} {d : Document} {v : Visit}
    (h : v ∈ visitsFrom resolve base d) : ∃ base location, resolve base location = .ok v.found := by
  obtain ⟨l, -, location, -, hfound, -⟩ := mem_visitsFrom.mp h
  exact ⟨base, location, hfound⟩

theorem Reachable.exists_resolve {root : Pending} {v : Visit}
    (h : Reachable resolve root v) :
    ∃ base location, resolve base location = .ok v.found := by
  cases h with
  | direct h => exact exists_resolve_of_mem h
  | through _ _ _ h => exact exists_resolve_of_mem h

/-- The places that a root leads to, as they are written. -/
def placesFrom (resolve : Resolution) (root : Pending) : Set Path :=
  {p | ∃ v, Reachable resolve root v ∧ v.found.location = p}

/-- A resolver leads to finitely many places. -/
theorem Resolver.finite_placesFrom (r : Resolver) (root : Pending) :
    (placesFrom r.resolve root).Finite := by
  refine (List.finite_toSet r.locations).subset ?_
  rintro _ ⟨v, hv, rfl⟩
  obtain ⟨base, location, hfound⟩ := hv.exists_resolve
  exact r.resolve_mem base location v.found hfound

/-- No round passes over the place of the root, and what waits leads to nothing that the root does
not lead to. -/
structure Stage.Within (resolve : Resolution) (root : Pending) (s : Stage) : Prop where
  root_loaded : root.location.toList ⊆ s.loaded
  reachable : ∀ p ∈ s.waiting, ∀ v ∈ visitsFrom resolve p.base p.document,
    Reachable resolve root v

theorem Stage.within_start {root : Pending} : (Stage.start root).Within resolve root where
  root_loaded := List.Subset.refl _
  reachable := by
    intro p hp v hv
    obtain rfl := List.mem_singleton.mp hp
    exact .direct hv

theorem Round.within {root : Pending} (h : Round resolve s t) (hs : s.Within resolve root) :
    t.Within resolve root := by
  obtain @⟨loaded, p, waiting, followed, d, hd⟩ := h
  obtain ⟨-, hfound, hloaded⟩ := discover_eq_ok hd
  refine ⟨?_, fun q hq w hw => ?_⟩
  · rw [hloaded]
    exact List.Subset.trans hs.root_loaded subset_loadedAfter
  rcases List.mem_append.mp hq with hq | hq
  · exact hs.reachable q (List.mem_cons_of_mem _ hq) w hw
  obtain ⟨v, hv, hloads, hbase⟩ := exists_of_mem_right hfound hq
  have hnew := (pairwise_firstVisits _ _).1 v hv
  have hroot : isLoaded root.location.toList v.found.location = false :=
    Bool.eq_false_iff.mpr fun h => Bool.eq_false_iff.mp hnew (isLoaded_of_subset hs.root_loaded h)
  rw [hbase, hloads.location_eq] at hw
  exact .through (hs.reachable p List.mem_cons_self v (firstVisits_subset hv)) hroot hloads.2 hw

/-- What a stage still has to do when it can load the given places only. -/
def Stage.remaining (places : List Path) (s : Stage) : ℕ :=
  (unloaded places s.loaded).length + s.waiting.length

theorem Round.remaining_lt {root : Pending} {places : List Path}
    (hplaces : ∀ v, Reachable resolve root v → isLoaded places v.found.location) (h : Round resolve s t)
    (hs : s.Within resolve root) : t.remaining places < s.remaining places := by
  obtain @⟨loaded, p, waiting, followed, d, hd⟩ := h
  have hmem : ∀ l ∈ p.document.links, ∀ location ∈ l.location, ∀ found,
      resolve p.base location = .ok found → isLoaded places found.location := by
    intro l hl location hlocation found h
    obtain ⟨v, hv, rfl⟩ := exists_visit hl hlocation h
    exact hplaces v (hs.reachable p List.mem_cons_self v hv)
  have hcount := length_unloaded_discover hd hmem
  simp only [Stage.remaining, List.length_append, List.length_cons]
  omega

/-- From a root that leads to finitely many places, however these are written, no rounds go on for
ever. -/
theorem acc_start {root : Pending} (h : (Path.steps '' placesFrom resolve root).Finite) :
    Acc (fun t s => Round resolve s t) (Stage.start root) := by
  obtain ⟨places, -, himage⟩ := Finset.subset_set_image_iff.mp h.coe_toFinset.subset
  have hplaces : ∀ v, Reachable resolve root v → isLoaded places.toList v.found.location := by
    intro v hv
    have hsteps : v.found.location.steps ∈ places.image Path.steps := by
      rw [himage, Set.Finite.mem_toFinset]
      exact Set.mem_image_of_mem _ ⟨v, hv, rfl⟩
    obtain ⟨place, hplace, heq⟩ := Finset.mem_image.mp hsteps
    exact isLoaded_iff.mpr ⟨place, Finset.mem_toList.mpr hplace, by simp [Path.same, heq]⟩
  suffices hacc : ∀ n s, Stage.remaining places.toList s = n → s.Within resolve root →
      Acc (fun t s => Round resolve s t) s from hacc _ _ rfl Stage.within_start
  intro n
  induction n using Nat.strong_induction_on with
  | _ n ih =>
    intro s hn hs
    refine ⟨_, fun t hround => ih _ ?_ t rfl (hround.within hs)⟩
    exact hn ▸ hround.remaining_lt hplaces hs

end

end SchemaShapes
