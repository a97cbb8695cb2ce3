/-! Walks in a graph in which every node leads to at most one other. A walk ends where no node
follows, and it is given up when it comes back to a node that it has met. -/
namespace SchemaShapes.Graph

variable {κ : Type} [DecidableEq κ]

/-- The nodes that a walk meets, in order. If it comes back to one, that one is also the last. -/
structure Walk (κ : Type) where
  stops : List κ
  returns : Bool

/-- A walk that starts one node earlier. -/
def Walk.after (k : κ) (w : Walk κ) : Walk κ := ⟨k :: w.stops, w.returns⟩

/-- The nodes of a domain that are not seen yet. -/
def unseen (domain seen : List κ) : List κ := domain.filter (· ∉ seen)

theorem length_unseen_cons_lt {domain seen : List κ} {k : κ} (hd : k ∈ domain) (hs : k ∉ seen) :
    (unseen domain (k :: seen)).length < (unseen domain seen).length := by
  have hsub : unseen domain (k :: seen) = (unseen domain seen).filter (· ≠ k) := by
    simp [unseen, List.filter_filter]
  have hmem : k ∈ unseen domain seen := by simp [unseen, hd, hs]
  rw [hsub]
  exact List.length_filter_lt_length_iff_exists.2 ⟨k, hmem, by simp⟩

/-- Walk on from a node. Nodes outside of the domain lead nowhere. -/
def walk (next : κ → Option κ) (domain seen : List κ) (k : κ) : Walk κ :=
  if _hs : k ∈ seen then ⟨[k], true⟩
  else if _hd : k ∈ domain then
    match next k with
    | none => ⟨[k], false⟩
    | some l => (walk next domain (k :: seen) l).after k
  else ⟨[k], false⟩
termination_by (unseen domain seen).length
decreasing_by exact length_unseen_cons_lt _hd _hs

end SchemaShapes.Graph
