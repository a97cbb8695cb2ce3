import Mathlib.Data.List.Perm.Subperm
import Mathlib.Data.List.TakeWhile
import Mathlib.Logic.Relation
import SchemaShapes.Graph.Reach

/-! Reachability as paths. What is gathered from pending nodes are exactly the nodes at the end of
the paths that start there and stay within the keys, provided that a key is the key of one node
only. In a finite graph without cycles, moreover, no path has more nodes than the graph. -/
namespace SchemaShapes.Graph

open Relation (ReflTransGen TransGen)

section Reached

variable {ν κ : Type} {key : ν → κ} {next : ν → List ν} {keys : List κ}

/-- One step of a path: to a node that follows and whose key is among the keys. -/
def Step (key : ν → κ) (next : ν → List ν) (keys : List κ) (a b : ν) : Prop :=
  b ∈ next a ∧ key b ∈ keys

theorem Step.mono {keys' : List κ} (hk : keys ⊆ keys') {a b : ν} (h : Step key next keys a b) :
    Step key next keys' a b :=
  ⟨h.1, hk h.2⟩

variable [DecidableEq κ]

/-- What is left to look at when the known nodes in front are passed over. -/
theorem mem_dropWhile_of_mem {pending : List ν} {a : ν} (ha : a ∈ pending) (hk : key a ∈ keys) :
    a ∈ pending.dropWhile (key · ∉ keys) := by
  rw [← List.takeWhile_append_dropWhile (p := (key · ∉ keys)) (l := pending)] at ha
  rcases List.mem_append.mp ha with h | h
  · have := List.mem_takeWhile_imp h
    simp [hk] at this
  · exact h

theorem exists_path_of_mem_reached {pending : List ν} {a : ν}
    (h : a ∈ reached key next keys pending) :
    ∃ p ∈ pending, key p ∈ keys ∧ ReflTransGen (Step key next keys) p a := by
  fun_induction reached key next keys pending with
  | case1 keys pending hnil => simp at h
  | case2 keys pending n rest hcons ih =>
    have hsub : n :: rest ⊆ pending := hcons ▸ (List.dropWhile_sublist _).subset
    have hn : key n ∈ keys := by
      have := List.head?_dropWhile_not (key · ∉ keys) pending
      rw [hcons] at this
      simpa using this
    rcases List.mem_cons.mp h with rfl | h
    · exact ⟨a, hsub (by simp), hn, .refl⟩
    · obtain ⟨p, hp, hpk, hpath⟩ := ih h
      have hpk' : key p ∈ keys := List.mem_of_mem_erase hpk
      have hpath' := ReflTransGen.mono (fun _ _ => Step.mono List.erase_subset) _ _ hpath
      rcases List.mem_append.mp hp with hp | hp
      · exact ⟨n, hsub (by simp), hn, .head ⟨hp, hpk'⟩ hpath'⟩
      · exact ⟨p, hsub (by simp [hp]), hpk', hpath'⟩

variable {S : ν → Prop}

/-- Whatever is pending or follows what is gathered is gathered. -/
theorem mem_reached_of_follows (hnext : ∀ a, S a → ∀ b ∈ next a, S b)
    (hkey : ∀ a b, S a → S b → key a = key b → a = b) {pending : List ν}
    (hp : ∀ a ∈ pending, S a) {b : ν} (hb : S b) (hk : key b ∈ keys)
    (h : b ∈ pending ∨ ∃ a ∈ reached key next keys pending, b ∈ next a) :
    b ∈ reached key next keys pending := by
  fun_induction reached key next keys pending with
  | case1 keys pending hnil =>
    rcases h with h | ⟨a, ha, -⟩
    · exact absurd (hnil ▸ mem_dropWhile_of_mem h hk) List.not_mem_nil
    · simp at ha
  | case2 keys pending n rest hcons ih =>
    have hsub : n :: rest ⊆ pending := hcons ▸ (List.dropWhile_sublist _).subset
    have hn : S n := hp n (hsub (by simp))
    by_cases hbn : key b = key n
    · rw [hkey b n hb hn hbn]
      exact List.mem_cons_self
    have hp' : ∀ a ∈ next n ++ rest, S a := by
      intro a ha
      rcases List.mem_append.mp ha with ha | ha
      · exact hnext n hn a ha
      · exact hp a (hsub (by simp [ha]))
    refine List.mem_cons_of_mem _ (ih hp' ((List.mem_erase_of_ne hbn).mpr hk) ?_)
    rcases h with h | ⟨a, ha, hab⟩
    · have hb' := mem_dropWhile_of_mem h hk
      rw [hcons] at hb'
      rcases List.mem_cons.mp hb' with rfl | hb'
      · exact absurd rfl hbn
      · exact .inl (List.mem_append_right _ hb')
    · rcases List.mem_cons.mp ha with rfl | ha
      · exact .inl (List.mem_append_left _ hab)
      · exact .inr ⟨a, ha, hab⟩

/-- The gathered nodes are the ends of the paths from pending nodes. -/
theorem mem_reached_iff (hnext : ∀ a, S a → ∀ b ∈ next a, S b)
    (hkey : ∀ a b, S a → S b → key a = key b → a = b) {pending : List ν}
    (hp : ∀ a ∈ pending, S a) {b : ν} :
    b ∈ reached key next keys pending ↔
      ∃ p ∈ pending, key p ∈ keys ∧ ReflTransGen (Step key next keys) p b := by
  refine ⟨exists_path_of_mem_reached, ?_⟩
  rintro ⟨p, hpp, hpk, hpath⟩
  have main : S b ∧ b ∈ reached key next keys pending := by
    induction hpath with
    | refl =>
      exact ⟨hp p hpp, mem_reached_of_follows hnext hkey hp (hp p hpp) hpk (.inl hpp)⟩
    | @tail a b _ hab ih =>
      have hb : S b := hnext a ih.1 b hab.1
      exact ⟨hb, mem_reached_of_follows hnext hkey hp hb hab.2 (.inr ⟨a, ih.2, hab.1⟩)⟩
  exact main.2

end Reached

section Height

variable {ν : Type} {edge : ν → ν → Prop}

/-- Paths from a node have at most the given number of nodes. -/
inductive HeightLe (edge : ν → ν → Prop) : ℕ → ν → Prop
  | intro {n : ℕ} {a : ν} (h : ∀ b, edge a b → HeightLe edge n b) : HeightLe edge (n + 1) a

theorem HeightLe.acc {n : ℕ} {a : ν} (h : HeightLe edge n a) : Acc (fun b a => edge a b) a := by
  induction h with
  | intro _ ih => exact Acc.intro _ ih

/-- The nodes passed before a node are distinct from it and from each other, so they and the paths
from it have room in the graph together. -/
theorem heightLe_of_trail {domain : List ν} (hd : ∀ a ∈ domain, ∀ b, edge a b → b ∈ domain)
    (hac : ∀ a ∈ domain, ¬TransGen edge a a) (n : ℕ) (trail : List ν) (a : ν) (ha : a ∈ domain)
    (hnd : trail.Nodup) (ht : ∀ b ∈ trail, b ∈ domain ∧ TransGen edge b a)
    (hlen : domain.length ≤ n + trail.length) : HeightLe edge n a := by
  -- A node that was passed before would lie on a cycle.
  have hnew : (a :: trail).Nodup :=
    List.nodup_cons.mpr ⟨fun hm => hac a ha (ht a hm).2, hnd⟩
  induction n generalizing trail a with
  | zero =>
    have hsub : a :: trail ⊆ domain := by
      intro b hb
      rcases List.mem_cons.mp hb with rfl | hb
      · exact ha
      · exact (ht b hb).1
    have := (List.subperm_of_subset hnew hsub).length_le
    simp only [List.length_cons] at this
    omega
  | succ n ih =>
    refine .intro fun b hb => ?_
    have htrail : ∀ c ∈ a :: trail, c ∈ domain ∧ TransGen edge c b := by
      intro c hc
      rcases List.mem_cons.mp hc with rfl | hc
      · exact ⟨ha, .single hb⟩
      · exact ⟨(ht c hc).1, (ht c hc).2.tail hb⟩
    refine ih (a :: trail) b (hd a ha b hb) hnew htrail ?_ ?_
    · simp only [List.length_cons]
      omega
    · exact List.nodup_cons.mpr ⟨fun hm => hac b (hd a ha b hb) (htrail b hm).2, hnew⟩

/-- No path of a finite graph without cycles has more nodes than the graph. -/
theorem heightLe_of_acyclic {domain : List ν} (hd : ∀ a ∈ domain, ∀ b, edge a b → b ∈ domain)
    (hac : ∀ a ∈ domain, ¬TransGen edge a a) {n : ℕ} (hn : domain.length ≤ n) {a : ν}
    (ha : a ∈ domain) : HeightLe edge n a :=
  heightLe_of_trail hd hac n [] a ha List.nodup_nil (by simp) (by simpa)

end Height

end SchemaShapes.Graph
