import Mathlib.Logic.Relation
import SchemaShapes.Graph.Walk

/-! Searches for a way back. A search keeps the nodes that it has still to look at, the one found
last in front, and the keys of those that it has looked at; it may hold a node several times, and
the node that it looks for is not looked at beforehand. No bound is put on it. In a finite graph it
ends all the same, as it goes on behind no node twice, and it finds the node exactly if a path leads
from the node back to it; other cycles neither hold it up nor count. -/
namespace SchemaShapes.Graph

open Relation (ReflTransGen TransGen)

/-- A search under way. -/
structure Search (ν κ : Type) where
  visited : List κ
  pending : List ν

namespace Search

variable {ν κ : Type} {key : ν → κ} {next : ν → List ν}

/-- A search begins with the nodes that follow the one it looks for. -/
def start (next : ν → List ν) (goal : ν) : Search ν κ := ⟨[], (next goal).reverse⟩

/-- A step takes the node in front, which is another one than the goal, and puts the nodes that
follow it in its place, unless it was visited before. -/
inductive Step (key : ν → κ) (next : ν → List ν) (goal : ν) : Search ν κ → Search ν κ → Prop
  | visit {n : ν} {visited : List κ} {rest : List ν} (hn : key n ≠ key goal)
    (hnew : key n ∉ visited) :
    Step key next goal ⟨visited, n :: rest⟩ ⟨key n :: visited, (next n).reverse ++ rest⟩
  | pass {n : ν} {visited : List κ} {rest : List ν} (hn : key n ≠ key goal)
    (hold : key n ∈ visited) :
    Step key next goal ⟨visited, n :: rest⟩ ⟨visited, rest⟩

/-- A search is over when the goal is in front, or when nothing is left. -/
inductive Answers (key : ν → κ) (goal : ν) : Search ν κ → Bool → Prop
  | found {n : ν} {visited : List κ} {rest : List ν} (hn : key n = key goal) :
    Answers key goal ⟨visited, n :: rest⟩ true
  | exhausted {visited : List κ} : Answers key goal ⟨visited, []⟩ false

/-- A search that is not over goes on in one way. -/
theorem answers_or_step (key : ν → κ) (next : ν → List ν) (goal : ν) (s : Search ν κ) :
    (∃ found, Answers key goal s found) ∨ ∃ t, Step key next goal s t := by
  obtain ⟨visited, pending⟩ := s
  cases pending with
  | nil => exact .inl ⟨false, .exhausted⟩
  | cons n rest =>
    by_cases hn : key n = key goal
    · exact .inl ⟨true, .found hn⟩
    · by_cases hold : key n ∈ visited
      · exact .inr ⟨_, .pass hn hold⟩
      · exact .inr ⟨_, .visit hn hold⟩

/-! ### What a step keeps -/

variable {S : ν → Prop} {goal : ν} {s t : Search ν κ}

/-- A property that goes over to the nodes that follow is kept by all that are pending. -/
theorem Step.forall_pending (hnext : ∀ a, S a → ∀ b ∈ next a, S b) (h : Step key next goal s t)
    (hs : ∀ a ∈ s.pending, S a) : ∀ a ∈ t.pending, S a := by
  cases h with
  | visit =>
    obtain ⟨hn, hrest⟩ := List.forall_mem_cons.mp hs
    refine List.forall_mem_append.mpr ⟨fun a ha => ?_, hrest⟩
    exact hnext _ hn a (List.mem_reverse.mp ha)
  | pass => exact (List.forall_mem_cons.mp hs).2

/-- The goal is not visited, no node is visited twice, and what follows the goal or a visited node
is visited or pending. -/
structure Covers (key : ν → κ) (next : ν → List ν) (S : ν → Prop) (goal : ν) (s : Search ν κ) :
    Prop where
  nodup : s.visited.Nodup
  goal_notMem : key goal ∉ s.visited
  follows : ∀ a, S a → a = goal ∨ key a ∈ s.visited →
    ∀ b ∈ next a, key b ∈ s.visited ∨ b ∈ s.pending

theorem covers_start : Covers key next S goal (start next goal) where
  nodup := List.nodup_nil
  goal_notMem := List.not_mem_nil
  follows a _ ha b hb := by
    rcases ha with rfl | ha
    · exact .inr (List.mem_reverse.mpr hb)
    · exact absurd ha List.not_mem_nil

theorem Covers.step (hkey : ∀ a b, S a → S b → key a = key b → a = b)
    (hc : Covers key next S goal s) (hs : ∀ a ∈ s.pending, S a) (h : Step key next goal s t) :
    Covers key next S goal t := by
  cases h with
  | @visit n visited rest hn hnew =>
    refine ⟨List.nodup_cons.mpr ⟨hnew, hc.nodup⟩, ?_, fun a ha hvisited b hb => ?_⟩
    · exact fun hmem => (List.mem_cons.mp hmem).elim (fun h => hn h.symm) hc.goal_notMem
    · by_cases han : key a = key n
      · obtain rfl := hkey a n ha (hs n List.mem_cons_self) han
        exact .inr (List.mem_append_left _ (List.mem_reverse.mpr hb))
      · have hvisited : a = goal ∨ key a ∈ visited :=
          hvisited.imp_right fun h => (List.mem_cons.mp h).resolve_left han
        rcases hc.follows a ha hvisited b hb with hb | hb
        · exact .inl (List.mem_cons_of_mem _ hb)
        · rcases List.mem_cons.mp hb with rfl | hb
          · exact .inl List.mem_cons_self
          · exact .inr (List.mem_append_right _ hb)
  | @pass n visited rest hn hold =>
    refine ⟨hc.nodup, hc.goal_notMem, fun a ha hvisited b hb => ?_⟩
    rcases hc.follows a ha hvisited b hb with hb | hb
    · exact .inl hb
    · rcases List.mem_cons.mp hb with rfl | hb
      · exact .inl hold
      · exact .inr hb

/-! ### Ends -/

/-- A step visits a new node, or has fewer nodes left to look at. -/
theorem Step.decreases [DecidableEq κ] {domain : List κ} (h : Step key next goal s t)
    (hs : ∀ a ∈ s.pending, key a ∈ domain) :
    Prod.Lex (· < ·) (· < ·) ((unseen domain t.visited).length, t.pending.length)
      ((unseen domain s.visited).length, s.pending.length) := by
  cases h with
  | visit hn hnew => exact .left _ _ (length_unseen_cons_lt (hs _ List.mem_cons_self) hnew)
  | pass => exact .right _ (Nat.lt_succ_self _)

/-- In a finite graph no search goes on for ever. -/
theorem acc_of_forall_pending [DecidableEq κ] {domain : List κ} (hnext : ∀ a, S a → ∀ b ∈ next a, S b)
    (hdomain : ∀ a, S a → key a ∈ domain) (hs : ∀ a ∈ s.pending, S a) :
    Acc (fun t s => Step key next goal s t) s := by
  have hwf : WellFounded (InvImage (Prod.Lex (· < ·) (· < ·)) fun s : Search ν κ =>
      ((unseen domain s.visited).length, s.pending.length)) :=
    InvImage.wf _ (Prod.lex Nat.lt_wfRel Nat.lt_wfRel).wf
  induction s using hwf.induction with
  | _ s ih =>
    refine Acc.intro s fun t h => ih t ?_ (h.forall_pending hnext hs)
    exact h.decreases fun a ha => hdomain a (hs a ha)

theorem exists_answers_of_acc (h : Acc (fun t s => Step key next goal s t) s) :
    ∃ last found, ReflTransGen (Step key next goal) s last ∧ Answers key goal last found := by
  induction h with
  | intro s _ ih =>
    rcases answers_or_step key next goal s with ⟨found, hfound⟩ | ⟨t, ht⟩
    · exact ⟨s, found, .refl, hfound⟩
    · obtain ⟨last, found, hrun, hfound⟩ := ih t ht
      exact ⟨last, found, .head ht hrun, hfound⟩

/-! ### Answers -/

/-- The nodes at the ends of the paths from the goal that have an edge. -/
def Behind (next : ν → List ν) (goal : ν) (a : ν) : Prop := TransGen (fun a b => b ∈ next a) goal a

/-- When nothing is left, every node behind the goal was visited. -/
theorem Covers.mem_visited_of_behind {visited : List κ} (hnext : ∀ a, S a → ∀ b ∈ next a, S b)
    (hgoal : S goal) (hc : Covers key next S goal ⟨visited, []⟩) {a : ν}
    (ha : Behind next goal a) : S a ∧ key a ∈ visited := by
  induction ha with
  | single hb =>
    exact ⟨hnext _ hgoal _ hb, (hc.follows _ hgoal (.inl rfl) _ hb).resolve_right List.not_mem_nil⟩
  | tail _ hb ih =>
    exact ⟨hnext _ ih.1 _ hb, (hc.follows _ ih.1 (.inr ih.2) _ hb).resolve_right List.not_mem_nil⟩

/-- All along a search, what is pending is behind the goal, and what was found is not lost. -/
theorem covers_of_run (hnext : ∀ a, S a → ∀ b ∈ next a, S b)
    (hkey : ∀ a b, S a → S b → key a = key b → a = b) (hgoal : S goal)
    (hrun : ReflTransGen (Step key next goal) (start next goal) s) :
    Covers key next S goal s ∧ ∀ a ∈ s.pending, S a ∧ Behind next goal a := by
  induction hrun with
  | refl =>
    refine ⟨covers_start, fun a ha => ?_⟩
    have ha : a ∈ next goal := List.mem_reverse.mp ha
    exact ⟨hnext goal hgoal a ha, .single ha⟩
  | tail _ hstep ih =>
    refine ⟨ih.1.step hkey (fun a ha => (ih.2 a ha).1) hstep, ?_⟩
    exact hstep.forall_pending (fun a ha b hb => ⟨hnext a ha.1 b hb, ha.2.tail hb⟩) ih.2

/-- A search that started at a node answers whether a path leads from the node back to it. -/
theorem answers_iff (hnext : ∀ a, S a → ∀ b ∈ next a, S b)
    (hkey : ∀ a b, S a → S b → key a = key b → a = b) (hgoal : S goal)
    (hrun : ReflTransGen (Step key next goal) (start next goal) s) {found : Bool}
    (hfound : Answers key goal s found) : found = true ↔ Behind next goal goal := by
  obtain ⟨hcovers, hpending⟩ := covers_of_run hnext hkey hgoal hrun
  cases hfound with
  | found hn =>
    obtain ⟨hS, hbehind⟩ := hpending _ List.mem_cons_self
    obtain rfl := hkey _ _ hS hgoal hn
    exact ⟨fun _ => hbehind, fun _ => rfl⟩
  | exhausted =>
    refine ⟨nofun, fun h => ?_⟩
    exact absurd (hcovers.mem_visited_of_behind hnext hgoal h).2 hcovers.goal_notMem

end Search

end SchemaShapes.Graph
