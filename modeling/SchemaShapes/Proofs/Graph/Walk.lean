import Mathlib.Data.List.Chain
import Mathlib.Logic.Relation
import SchemaShapes.Graph.Walk

/-! Walks that do not come back. From a node whose walk ends, only finitely many nodes follow one
after the other, and the walk does not depend on what was seen before it, so it may be taken apart
at its first node. A walk that does come back leads to what was seen before or to a circle. -/
namespace SchemaShapes.Graph

open Relation (ReflTransGen TransGen)

variable {κ : Type} [DecidableEq κ] {next : κ → Option κ} {domain : List κ}

/-- The second node follows the first. -/
def Follows (next : κ → Option κ) (k l : κ) : Prop := next k = some l

/-- A walk that ends also ends, at the same node, if fewer nodes were seen before. -/
theorem walk_eq_of_subset {seen seen' : List κ} {k : κ} (hs : seen' ⊆ seen)
    (h : (walk next domain seen k).returns = false) :
    walk next domain seen' k = walk next domain seen k := by
  fun_induction walk next domain seen k generalizing seen' with
  | case1 seen k hk => simp at h
  | case2 seen k hk hd hn =>
    have hk' : k ∉ seen' := fun hm => hk (hs hm)
    rw [walk, dif_neg hk', dif_pos hd]
    simp [hn]
  | case3 seen k hk hd l hn ih =>
    have hk' : k ∉ seen' := fun hm => hk (hs hm)
    rw [walk, dif_neg hk', dif_pos hd]
    simp only [hn]
    rw [ih (List.cons_subset_cons k hs) h]
  | case4 seen k hk hd =>
    have hk' : k ∉ seen' := fun hm => hk (hs hm)
    rw [walk, dif_neg hk', dif_neg hd]

/-- Only finitely many nodes follow one after the other from a node whose walk ends. -/
theorem acc_of_walk (hd : ∀ k l, next k = some l → k ∈ domain) {seen : List κ} {k : κ}
    (h : (walk next domain seen k).returns = false) :
    Acc (fun l k => Follows next k l) k := by
  fun_induction walk next domain seen k with
  | case1 seen k hk => simp at h
  | case2 seen k hk hdk hn =>
    refine Acc.intro k fun l hl => ?_
    rw [Follows, hn] at hl
    cases hl
  | case3 seen k hk hdk m hn ih =>
    refine Acc.intro k fun l hl => ?_
    rw [Follows, hn] at hl
    cases hl
    exact ih h
  | case4 seen k hk hdk => exact Acc.intro k fun l hl => absurd (hd k l hl) hdk

/-- A walk that ends still ends if some nodes lead nowhere instead. -/
theorem walk_returns_of_le {next' : κ → Option κ} (hn : ∀ k l, next' k = some l → next k = some l)
    {seen : List κ} {k : κ} (h : (walk next domain seen k).returns = false) :
    (walk next' domain seen k).returns = false := by
  fun_induction walk next domain seen k with
  | case1 seen k hk => simp at h
  | case2 seen k hk hd hnone =>
    have hnone' : next' k = none := by
      cases hl : next' k with
      | none => rfl
      | some l => simp [hn k l hl] at hnone
    rw [walk, dif_neg hk, dif_pos hd]
    simp [hnone']
  | case3 seen k hk hd l hl ih =>
    rw [walk, dif_neg hk, dif_pos hd]
    cases hl' : next' k with
    | none => rfl
    | some m =>
      obtain rfl : l = m := by simpa [hl] using hn k m hl'
      exact ih h
  | case4 seen k hk hd => rw [walk, dif_neg hk, dif_neg hd]

/-- A walk ends exactly if no node of it was seen before and none is met twice, however far the
nodes that follow each other are listed. -/
theorem walk_ends_iff (hd : ∀ k l, next k = some l → k ∈ domain) {seen : List κ} {k : κ} :
    (walk next domain seen k).returns = false ↔
      ∀ ks, (k :: ks).IsChain (Follows next) → (k :: ks).Nodup ∧ ∀ l ∈ k :: ks, l ∉ seen := by
  fun_induction walk next domain seen k with
  | case1 seen k hk =>
    refine ⟨fun h => by simp at h, fun h => ?_⟩
    exact absurd hk ((h [] (by simp)).2 k (by simp))
  | case2 seen k hk hdk hn =>
    refine ⟨fun _ ks hks => ?_, fun _ => rfl⟩
    cases ks with
    | nil => simpa using hk
    | cons l ks =>
      have hl : next k = some l := (List.isChain_cons_cons.mp hks).1
      rw [hn] at hl
      cases hl
  | case3 seen k hk hdk l hn ih =>
    refine ih.trans ⟨fun h ks hks => ?_, fun h ks hks => ?_⟩
    · cases ks with
      | nil => simpa using hk
      | cons m ks =>
        obtain ⟨hm, hks⟩ := List.isChain_cons_cons.mp hks
        obtain rfl : l = m := Option.some.inj (hn.symm.trans hm)
        obtain ⟨hnd, hnew⟩ := h ks hks
        refine ⟨List.nodup_cons.mpr ⟨fun hmem => hnew k hmem (by simp), hnd⟩, fun x hx => ?_⟩
        rcases List.mem_cons.mp hx with rfl | hx
        · exact hk
        · exact fun hseen => hnew x hx (List.mem_cons_of_mem _ hseen)
    · obtain ⟨hnd, hnew⟩ := h (l :: ks) (List.isChain_cons_cons.mpr ⟨hn, hks⟩)
      obtain ⟨hkl, hnd⟩ := List.nodup_cons.mp hnd
      refine ⟨hnd, fun x hx hseen => ?_⟩
      rcases List.mem_cons.mp hseen with rfl | hseen
      · exact hkl hx
      · exact hnew x (List.mem_cons_of_mem _ hx) hseen
  | case4 seen k hk hdk =>
    refine ⟨fun _ ks hks => ?_, fun _ => rfl⟩
    cases ks with
    | nil => simpa using hk
    | cons l ks => exact absurd (hd k l (List.isChain_cons_cons.mp hks).1) hdk

/-! ### Graphs in which all walks end -/

/-- If every walk ends that starts one node later, all walks end. -/
theorem walk_returns_of_forall
    (h : ∀ k l, next k = some l → (walk next domain [k] l).returns = false) (k : κ) :
    (walk next domain [] k).returns = false := by
  rw [walk, dif_neg (by simp)]
  by_cases hd : k ∈ domain
  · rw [dif_pos hd]
    cases hl : next k with
    | none => rfl
    | some l => exact h k l hl
  · rw [dif_neg hd]

/-- A walk that ends is its first node and the walk from the one that follows. -/
theorem walk_of_follows {k l : κ} (hd : k ∈ domain) (hl : next k = some l)
    (h : (walk next domain [] k).returns = false) :
    walk next domain [] k = (walk next domain [] l).after k := by
  have hw : walk next domain [] k = (walk next domain [k] l).after k := by
    rw [walk, dif_neg (by simp), dif_pos hd]
    simp [hl]
  rw [hw] at h ⊢
  rw [walk_eq_of_subset (List.nil_subset [k]) h]

/-- A walk from a node that leads nowhere stops at it. -/
theorem walk_of_none {k : κ} (hl : next k = none) : walk next domain [] k = ⟨[k], false⟩ := by
  rw [walk, dif_neg (by simp)]
  by_cases hd : k ∈ domain <;> simp [hd, hl]

theorem wellFounded_of_walks (hd : ∀ k l, next k = some l → k ∈ domain)
    (h : ∀ k, (walk next domain [] k).returns = false) :
    WellFounded fun l k => Follows next k l :=
  ⟨fun k => acc_of_walk hd (h k)⟩

/-! ### Walks that come back -/

/-- A walk comes back because it meets a node that was seen before or that follows itself. -/
theorem exists_return_of_walk {seen : List κ} {k : κ}
    (h : (walk next domain seen k).returns = true) :
    ∃ l, ReflTransGen (Follows next) k l ∧ (l ∈ seen ∨ TransGen (Follows next) l l) := by
  fun_induction walk next domain seen k with
  | case1 seen k hk => exact ⟨k, .refl, .inl hk⟩
  | case2 => cases h
  | case3 seen k hk hd m hm ih =>
    obtain ⟨l, hml, hl⟩ := ih h
    have hkl : ReflTransGen (Follows next) k l := .head hm hml
    rcases hl with hl | hl
    · rcases List.mem_cons.mp hl with rfl | hl
      -- The walk came back to this very node, which so follows itself.
      · exact ⟨l, .refl, .inr (.head' hm hml)⟩
      · exact ⟨l, hkl, .inl hl⟩
    · exact ⟨l, hkl, .inr hl⟩
  | case4 => cases h

omit [DecidableEq κ] in
/-- A node that follows itself follows all nodes that follow it. -/
theorem transGen_of_circle {k l : κ} (hk : TransGen (Follows next) k k)
    (hkl : ReflTransGen (Follows next) k l) : TransGen (Follows next) l k := by
  induction hkl with
  | refl => exact hk
  | @tail l m _ hlm ih =>
    -- Only one node follows `l`, so the way back from `l` leads through `m`.
    obtain ⟨m', hm', hback⟩ := TransGen.head'_iff.mp ih
    obtain rfl : m = m' := Option.some.inj (hlm.symm.trans hm')
    rcases Relation.reflTransGen_iff_eq_or_transGen.mp hback with rfl | hback
    · exact hk
    · exact hback

end SchemaShapes.Graph
