/-! Reachability in a finite graph. Nodes are told apart by their keys, and every node that is
reached is taken out of the keys that remain, so cycles end. -/
namespace SchemaShapes.Graph

variable {ν κ : Type} [DecidableEq κ]

/-- The nodes that are reached from pending ones, each once. -/
def reached (key : ν → κ) (next : ν → List ν) (remaining : List κ) (pending : List ν) : List ν :=
  match _h : pending.dropWhile (key · ∉ remaining) with
  | [] => []
  | n :: rest => n :: reached key next (remaining.erase (key n)) (next n ++ rest)
termination_by remaining.length
decreasing_by
  have hn : key n ∈ remaining := by
    have := List.head?_dropWhile_not (key · ∉ remaining) pending
    rw [_h] at this
    simpa using this
  have hpos := List.length_pos_of_mem hn
  rw [List.length_erase_of_mem hn]
  omega

end SchemaShapes.Graph
