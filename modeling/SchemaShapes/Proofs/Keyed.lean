import Mathlib.Data.List.Induction
import Mathlib.Data.List.Nodup
import Mathlib.Data.List.Perm.Subperm
import SchemaShapes.Keyed

/-! What a keyed list holds. No key stands in it twice, and of the entries with one key that were
put into it, it holds the last one. -/
namespace SchemaShapes.Keyed

variable {α κ : Type} [DecidableEq κ] {key : α → κ}

/-- A key that is there keeps its place, and a new one comes last. -/
theorem map_put (a : α) (xs : List α) :
    (put key a xs).map key =
      if key a ∈ xs.map key then xs.map key else xs.map key ++ [key a] := by
  induction xs with
  | nil => rfl
  | cons x xs ih =>
    by_cases hx : key x = key a
    · rw [put, if_pos hx, List.map_cons, List.map_cons, if_pos (by simp [hx]), hx]
    · rw [put, if_neg hx, List.map_cons, ih, List.map_cons]
      by_cases hmem : key a ∈ xs.map key
      · rw [if_pos hmem, if_pos (List.mem_cons_of_mem _ hmem)]
      · have hnot : key a ∉ key x :: xs.map key := by
          rw [List.mem_cons]
          rintro (h | h)
          · exact hx h.symm
          · exact hmem h
        rw [if_neg hmem, if_neg hnot, List.cons_append]

theorem nodup_put {a : α} {xs : List α} (h : (xs.map key).Nodup) :
    ((put key a xs).map key).Nodup := by
  rw [map_put]
  by_cases hmem : key a ∈ xs.map key
  · rwa [if_pos hmem]
  · rw [if_neg hmem]
    refine List.nodup_append.mpr ⟨h, by simp, fun k hk l hl hkl => ?_⟩
    rw [List.mem_singleton.mp hl] at hkl
    exact hmem (hkl ▸ hk)

/-- Putting an entry in drops the one with its key and keeps all others. -/
theorem mem_put {a b : α} {xs : List α} (h : (xs.map key).Nodup) :
    b ∈ put key a xs ↔ b = a ∨ b ∈ xs ∧ key b ≠ key a := by
  induction xs with
  | nil => simp [put]
  | cons x xs ih =>
    obtain ⟨hx, hxs⟩ := List.nodup_cons.mp h
    by_cases hxa : key x = key a
    · have hne : ∀ y ∈ xs, key y ≠ key a := fun y hy hya =>
        hx (List.mem_map.mpr ⟨y, hy, hya.trans hxa.symm⟩)
      rw [put, if_pos hxa, List.mem_cons, List.mem_cons]
      constructor
      · rintro (hb | hb)
        · exact .inl hb
        · exact .inr ⟨.inr hb, hne b hb⟩
      · rintro (hb | ⟨rfl | hb, hba⟩)
        · exact .inl hb
        · exact absurd hxa hba
        · exact .inr hb
    · rw [put, if_neg hxa, List.mem_cons, ih hxs, List.mem_cons]
      constructor
      · rintro (rfl | hb | ⟨hb, hba⟩)
        · exact .inr ⟨.inl rfl, hxa⟩
        · exact .inl hb
        · exact .inr ⟨.inr hb, hba⟩
      · rintro (hb | ⟨hb | hb, hba⟩)
        · exact .inr (.inl hb)
        · exact .inl hb
        · exact .inr (.inr ⟨hb, hba⟩)

theorem ofList_append (xs : List α) (a : α) : ofList key (xs ++ [a]) = put key a (ofList key xs) :=
  putAll_append key xs [a] []

/-- A new key comes last. -/
theorem put_of_notMem {a : α} {xs : List α} (h : key a ∉ xs.map key) :
    put key a xs = xs ++ [a] := by
  induction xs with
  | nil => rfl
  | cons x xs ih =>
    rw [List.map_cons, List.mem_cons, not_or] at h
    rw [put, if_neg (Ne.symm h.1), ih h.2, List.cons_append]

/-- Entries with different keys are kept as they are. -/
theorem ofList_of_nodup {xs : List α} (h : (xs.map key).Nodup) : ofList key xs = xs := by
  induction xs using List.reverseRecOn with
  | nil => rfl
  | append_singleton xs a ih =>
    rw [List.map_append, List.nodup_append] at h
    obtain ⟨hxs, -, hdisjoint⟩ := h
    have hnew : key a ∉ xs.map key := fun hmem => hdisjoint _ hmem (key a) (by simp) rfl
    rw [ofList_append, ih hxs, put_of_notMem hnew]

theorem nodup_ofList (xs : List α) : ((ofList key xs).map key).Nodup := by
  induction xs using List.reverseRecOn with
  | nil => exact List.nodup_nil
  | append_singleton xs a ih =>
    rw [ofList_append]
    exact nodup_put ih

/-- An entry is in the keyed list of a sequence exactly if no later one has its key. -/
theorem mem_ofList {a : α} {xs : List α} : a ∈ ofList key xs ↔
    ∃ before after, xs = before ++ a :: after ∧ ∀ b ∈ after, key b ≠ key a := by
  induction xs using List.reverseRecOn with
  | nil => simp [ofList, putAll]
  | append_singleton xs b ih =>
    rw [ofList_append, mem_put (nodup_ofList xs), ih]
    constructor
    · rintro (rfl | ⟨⟨before, after, rfl, hafter⟩, hab⟩)
      · exact ⟨xs, [], rfl, by simp⟩
      · refine ⟨before, after ++ [b], by simp, fun d hd => ?_⟩
        rcases List.mem_append.mp hd with hd | hd
        · exact hafter d hd
        · rw [List.mem_singleton] at hd
          rw [hd]
          exact hab.symm
    · rintro ⟨before, after, heq, hafter⟩
      rcases List.eq_nil_or_concat after with rfl | ⟨after, d, rfl⟩
      · obtain ⟨-, hb⟩ := List.append_inj' heq rfl
        exact .inl (List.singleton_inj.mp hb).symm
      · rw [List.concat_eq_append, ← List.cons_append, ← List.append_assoc] at heq
        obtain ⟨hxs, hb⟩ := List.append_inj' heq rfl
        obtain rfl := List.singleton_inj.mp hb
        refine .inr ⟨⟨before, after, hxs, fun d hd => hafter d (by simp [hd])⟩, ?_⟩
        exact (hafter b (by simp)).symm

theorem mem_of_mem_ofList {a : α} {xs : List α} (h : a ∈ ofList key xs) : a ∈ xs := by
  obtain ⟨before, after, rfl, -⟩ := mem_ofList.mp h
  exact List.mem_append_right _ List.mem_cons_self

/-- The keyed list of a sequence has the keys that are in the sequence. -/
theorem mem_map_ofList_iff {k : κ} {xs : List α} :
    k ∈ (ofList key xs).map key ↔ k ∈ xs.map key := by
  induction xs using List.reverseRecOn with
  | nil => rfl
  | append_singleton xs a ih =>
    rw [ofList_append, map_put, List.map_append, List.mem_append, List.map_singleton,
      List.mem_singleton]
    split_ifs with hmem
    · rw [ih]
      refine ⟨.inl, ?_⟩
      rintro (hk | rfl)
      · exact hk
      · exact ih.mp hmem
    · rw [List.mem_append, ih, List.mem_singleton]

/-- The keys of a keyed list stand in the order in which they first appear. -/
theorem map_key_ofList (xs : List α) : (ofList key xs).map key = (xs.map key).eraseDups := by
  induction xs using List.reverseRecOn with
  | nil => rfl
  | append_singleton xs a ih =>
    rw [ofList_append, map_put, List.map_append, List.eraseDups_append, List.map_singleton, ih]
    by_cases hmem : key a ∈ xs.map key
    · have hold : [key a].removeAll (xs.map key) = [] := by simpa [List.removeAll] using hmem
      rw [if_pos (List.mem_eraseDups.mpr hmem), hold, List.eraseDups_nil, List.append_nil]
    · have hnew : [key a].removeAll (xs.map key) = [key a] := by simpa [List.removeAll] using hmem
      rw [if_neg (mt List.mem_eraseDups.mp hmem), hnew]
      rfl

/-- A key has its last entry. -/
theorem findRev?_of_mem_ofList {a : α} {xs : List α} (h : a ∈ ofList key xs) :
    xs.findRev? (key · = key a) = some a := by
  obtain ⟨before, after, rfl, hafter⟩ := mem_ofList.mp h
  have hnone : after.reverse.find? (key · = key a) = none :=
    List.find?_eq_none.mpr fun b hb => by simpa using hafter b (List.mem_reverse.mp hb)
  rw [List.findRev?_eq_find?_reverse, List.reverse_append, List.reverse_cons, List.append_assoc,
    List.find?_append, hnone]
  simp

/-- A keyed list has the last entries of the keys, in the order in which these first appear. -/
theorem ofList_eq_filterMap (xs : List α) :
    ofList key xs = (xs.map key).eraseDups.filterMap fun k => xs.findRev? (key · = k) := by
  rw [← map_key_ofList, List.filterMap_map]
  symm
  calc (ofList key xs).filterMap ((fun k => xs.findRev? (key · = k)) ∘ key)
      = (ofList key xs).filterMap some := List.filterMap_congr fun _ => findRev?_of_mem_ofList
    _ = ofList key xs := List.filterMap_some

theorem length_ofList_le (xs : List α) : (ofList key xs).length ≤ xs.length := by
  have hkeys : ((ofList key xs).map key).length ≤ (xs.map key).length :=
    ((nodup_ofList xs).subperm fun _ => mem_map_ofList_iff.mp).length_le
  simpa only [List.length_map] using hkeys

theorem ofList_eq_nil_iff {xs : List α} : ofList key xs = [] ↔ xs = [] := by
  constructor
  · intro h
    cases xs with
    | nil => rfl
    | cons x xs =>
      have hmem : key x ∈ (ofList key (x :: xs)).map key := mem_map_ofList_iff.mpr (by simp)
      simp [h] at hmem
  · rintro rfl
    rfl

/-! ### Keys and their entries -/

theorem find?_put (a : α) (xs : List α) (k : κ) :
    (put key a xs).find? (key · = k) = if key a = k then some a else xs.find? (key · = k) := by
  induction xs with
  | nil => by_cases ha : key a = k <;> simp [put, ha]
  | cons x xs ih =>
    by_cases hx : key x = key a
    · rw [put, if_pos hx, List.find?_cons, List.find?_cons, hx]
      by_cases ha : key a = k <;> simp [ha]
    · rw [put, if_neg hx, List.find?_cons, List.find?_cons, ih]
      by_cases hxk : key x = k
      · have ha : key a ≠ k := fun ha => hx (hxk.trans ha.symm)
        simp [hxk, ha]
      · simp [hxk]

/-- If no key stands in a list twice, a key leads to any entry that has it. -/
theorem find?_eq_some_iff {a : α} {k : κ} {xs : List α} (h : (xs.map key).Nodup) :
    xs.find? (key · = k) = some a ↔ a ∈ xs ∧ key a = k := by
  constructor
  · intro ha
    exact ⟨List.mem_of_find?_eq_some ha, by simpa using List.find?_some ha⟩
  · rintro ⟨ha, rfl⟩
    obtain ⟨b, hb⟩ := Option.isSome_iff_exists.mp
      (List.find?_isSome.mpr ⟨a, ha, by simp⟩ : (xs.find? (key · = key a)).isSome)
    have hkey : key b = key a := by simpa using List.find?_some hb
    rw [hb, List.inj_on_of_nodup_map h (List.mem_of_find?_eq_some hb) ha hkey]

/-- The entries that the keys of a list lead to are the list. -/
theorem filterMap_find? {xs : List α} (h : (xs.map key).Nodup) :
    (xs.map key).filterMap (fun k => xs.find? (key · = k)) = xs := by
  rw [List.filterMap_map]
  calc xs.filterMap ((fun k => xs.find? (key · = k)) ∘ key)
      = xs.filterMap some :=
        List.filterMap_congr fun a ha => (find?_eq_some_iff h).mpr ⟨ha, rfl⟩
    _ = xs := List.filterMap_some

/-- A key stands before those that first appear after it. -/
theorem pairwise_map_key_ofList (xs : List α) : ((ofList key xs).map key).Pairwise fun k l =>
    (xs.map key).idxOf k < (xs.map key).idxOf l := by
  induction xs using List.reverseRecOn with
  | nil => exact List.Pairwise.nil
  | append_singleton xs a ih =>
    have hold : ∀ k ∈ (ofList key xs).map key, k ∈ xs.map key := fun _ => mem_map_ofList_iff.mp
    rw [ofList_append, map_put, List.map_append]
    have hkept : ((ofList key xs).map key).Pairwise fun k l =>
        (xs.map key ++ [key a]).idxOf k < (xs.map key ++ [key a]).idxOf l := by
      refine ih.imp_of_mem fun {k l} hk hl hkl => ?_
      rwa [List.idxOf_append_of_mem (hold k hk), List.idxOf_append_of_mem (hold l hl)]
    split_ifs with hmem
    · exact hkept
    · refine List.pairwise_append.mpr ⟨hkept, List.pairwise_singleton _ _, fun k hk l hl => ?_⟩
      obtain rfl := List.mem_singleton.mp hl
      rw [List.idxOf_append_of_mem (hold k hk),
        List.idxOf_append_of_notMem (mt mem_map_ofList_iff.mpr hmem)]
      exact Nat.lt_add_right _ (List.idxOf_lt_length_iff.mpr (hold k hk))

theorem put_map {f : α → α} (hf : ∀ a, key (f a) = key a) (a : α) (xs : List α) :
    put key (f a) (xs.map f) = (put key a xs).map f := by
  induction xs with
  | nil => rfl
  | cons x xs ih =>
    rw [List.map_cons, put, put, hf, hf, ih]
    split_ifs <;> rfl

/-- A change of the entries that keeps their keys can be made before or after. -/
theorem ofList_map {f : α → α} (hf : ∀ a, key (f a) = key a) (xs : List α) :
    ofList key (xs.map f) = (ofList key xs).map f := by
  induction xs using List.reverseRecOn with
  | nil => rfl
  | append_singleton xs a ih =>
    rw [List.map_append, List.map_singleton, ofList_append, ofList_append, ih, put_map hf]

/-- Entries with keys that are all there already leave the order as it is. -/
theorem map_key_ofList_append {xs ys : List α} (h : ∀ b ∈ ys, key b ∈ xs.map key) :
    (ofList key (xs ++ ys)).map key = (ofList key xs).map key := by
  have hold : (ys.map key).removeAll (xs.map key) = [] := by
    simpa [List.removeAll] using h
  rw [map_key_ofList, map_key_ofList, List.map_append, List.eraseDups_append, hold,
    List.eraseDups_nil, List.append_nil]

end SchemaShapes.Keyed
