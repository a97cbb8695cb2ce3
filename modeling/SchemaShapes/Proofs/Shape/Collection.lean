import Mathlib.Logic.Function.Basic
import SchemaShapes.Proofs.Keyed
import SchemaShapes.Proofs.Shape.Soundness

/-! Collections are built in one pass over their branches. A table with the tags in order and with
what stands under each is filled branch by branch, and it is the collection: a tag has the place of
its first branch and the contents of its last one. So branches under tags that are there already
leave the order as it is, and multiplicities can be changed before the pass or after it. -/
namespace SchemaShapes

/-- What stands under the tag of a branch. -/
def Branch.contents (b : Branch) : Multiplicity × Shape := (b.multiplicity, b.shape)

/-- The branch with a tag and what stands under it. -/
def Branch.under (tag : BranchTag) (contents : Multiplicity × Shape) : Branch :=
  ⟨tag, contents.1, contents.2⟩

theorem Branch.under_contents (b : Branch) : Branch.under b.key b.contents = b := by
  cases b
  rfl

/-- The branch with its multiplicity changed. -/
def Branch.change (f : Multiplicity → Multiplicity) (b : Branch) : Branch :=
  { b with multiplicity := f b.multiplicity }

/-- A collection in two parts: the tags in order, and what stands under a tag. -/
structure BranchTable where
  order : List BranchTag
  contents : BranchTag → Option (Multiplicity × Shape)

namespace BranchTable

def empty : BranchTable := ⟨[], fun _ => none⟩

/-- Enter a branch. It replaces what stood under its tag, and a tag that nothing stood under comes
last. -/
def enter (t : BranchTable) (b : Branch) : BranchTable where
  order := if t.contents b.tag = none then t.order ++ [b.tag] else t.order
  contents := Function.update t.contents b.tag (some b.contents)

/-- The table of branches that are entered one after the other. -/
def ofBranches (bs : List Branch) : BranchTable := bs.foldl enter empty

/-- The branches in the order of the tags. A tag that nothing stands under is passed over. -/
def branches (t : BranchTable) : List Branch :=
  t.order.filterMap fun tag => (t.contents tag).map (Branch.under tag)

theorem ofBranches_concat (bs : List Branch) (b : Branch) :
    ofBranches (bs ++ [b]) = (ofBranches bs).enter b := by
  simp [ofBranches]

theorem contents_enter (t : BranchTable) (b : Branch) (tag : BranchTag) :
    (t.enter b).contents tag = if b.key = tag then some b.contents else t.contents tag := by
  change Function.update t.contents b.key (some b.contents) tag = _
  rw [Function.update_apply, if_congr eq_comm rfl rfl]

/-- What the table of a sequence of branches is. -/
structure Records (t : BranchTable) (bs : List Branch) : Prop where
  nodup : t.order.Nodup
  mem_order : ∀ tag, tag ∈ t.order ↔ ∃ b ∈ bs, b.tag = tag
  /-- Of two tags, the one that appears first comes first. -/
  first : t.order.Pairwise fun tag other =>
    (bs.map Branch.tag).idxOf tag < (bs.map Branch.tag).idxOf other
  last : ∀ tag multiplicity shape, t.contents tag = some (multiplicity, shape) ↔
    ∃ before after, bs = before ++ ⟨tag, multiplicity, shape⟩ :: after ∧
      ∀ b ∈ after, b.tag ≠ tag
  contents_eq_none : ∀ tag, t.contents tag = none ↔ tag ∉ t.order

end BranchTable

namespace Shape

/-- The branches of a shape as a table. -/
def table (s : Shape) : BranchTable where
  order := s.branches.map Branch.key
  contents tag := (s.branches.find? (·.key = tag)).map Branch.contents

theorem table_contents (s : Shape) (tag : BranchTag) :
    s.table.contents tag = (s.branches.find? (·.key = tag)).map Branch.contents := rfl

theorem table_contents_eq_none_iff {s : Shape} {tag : BranchTag} :
    s.table.contents tag = none ↔ tag ∉ s.table.order := by
  simp [table]

theorem table_contents_eq_some_iff {s : Shape} (h : s.table.order.Nodup) {b : Branch} :
    s.table.contents b.tag = some b.contents ↔ b ∈ s.branches := by
  rw [table_contents, Option.map_eq_some_iff]
  constructor
  · rintro ⟨c, hc, hcontents⟩
    obtain ⟨hmem, hkey⟩ := (Keyed.find?_eq_some_iff h).mp hc
    rwa [← b.under_contents, ← hcontents, show b.key = c.key from hkey.symm, c.under_contents]
  · exact fun hb => ⟨b, (Keyed.find?_eq_some_iff h).mpr ⟨hb, rfl⟩, rfl⟩

/-- Branches with different tags are read back from their table. -/
theorem table_branches {s : Shape} (h : s.table.order.Nodup) : s.table.branches = s.branches := by
  have hread : ∀ tag, (s.table.contents tag).map (Branch.under tag) =
      s.branches.find? (·.key = tag) := by
    intro tag
    rw [table_contents]
    cases hb : s.branches.find? (·.key = tag) with
    | none => rfl
    | some b =>
      obtain ⟨-, rfl⟩ := (Keyed.find?_eq_some_iff h).mp hb
      exact congrArg some b.under_contents
  rw [BranchTable.branches, funext hread]
  exact Keyed.filterMap_find? h

/-- A branch that is put into a collection is entered into its table. -/
theorem table_put (b : Branch) (bs : List Branch) :
    (collection (Keyed.put Branch.key b bs)).table = (collection bs).table.enter b := by
  have horder : (collection (Keyed.put Branch.key b bs)).table.order =
      ((collection bs).table.enter b).order := by
    refine (Keyed.map_put b bs).trans ?_
    rw [BranchTable.enter]
    simp only [table_contents_eq_none_iff, ite_not]
    rfl
  have hcontents : (collection (Keyed.put Branch.key b bs)).table.contents =
      ((collection bs).table.enter b).contents := by
    funext tag
    have hfind : (Keyed.put Branch.key b bs).find? (·.key = tag) = _ := Keyed.find?_put b bs tag
    rw [BranchTable.contents_enter]
    refine (congrArg (Option.map Branch.contents) hfind).trans ?_
    split_ifs <;> rfl
  exact congrArg₂ BranchTable.mk horder hcontents

/-- The table of a collection is filled branch by branch. -/
theorem table_ofBranches (bs : List Branch) : (ofBranches bs).table = .ofBranches bs := by
  induction bs using List.reverseRecOn with
  | nil => rfl
  | append_singleton bs b ih =>
    rw [BranchTable.ofBranches_concat, ← ih, ofBranches, ofBranches, Keyed.ofList_append, table_put]

theorem records_table (bs : List Branch) : (ofBranches bs).table.Records bs where
  nodup := Keyed.nodup_ofList bs
  mem_order _ := Keyed.mem_map_ofList_iff.trans List.mem_map
  first := Keyed.pairwise_map_key_ofList bs
  last tag multiplicity shape :=
    (table_contents_eq_some_iff (s := ofBranches bs) (b := ⟨tag, multiplicity, shape⟩)
      (Keyed.nodup_ofList bs)).trans Keyed.mem_ofList
  contents_eq_none _ := table_contents_eq_none_iff

/-- The collection of a sequence of branches is the table into which they are entered one after the
other. It has each tag of the sequence once, in the order of first appearance, each with the
contents of its last branch, and no other tag; and its branches are read off tag by tag, without
passing any over. More branches under tags that are there already do not change the order, and a
change of all multiplicities can be made before or after. So a choice is the sequence of the same
children with each branch that is left widened. -/
theorem ofBranches_firstPlace_lastBranch (bs : List Branch) :
    (ofBranches bs).table = .ofBranches bs ∧
    (BranchTable.ofBranches bs).Records bs ∧
    (BranchTable.ofBranches bs).branches = (ofBranches bs).branches ∧
    (BranchTable.ofBranches bs).branches.map Branch.tag = (BranchTable.ofBranches bs).order ∧
    (∀ more, (∀ b ∈ more, ∃ c ∈ bs, c.tag = b.tag) →
      (ofBranches (bs ++ more)).branches.map Branch.tag =
        (ofBranches bs).branches.map Branch.tag) ∧
    (∀ f, ofBranches (bs.map (Branch.change f)) =
      .collection ((ofBranches bs).branches.map (Branch.change f))) ∧
    ∀ occurs children,
      (Tree.Particle.group .choice occurs children).branch =
        { (Tree.Particle.group .sequence occurs children).branch with
          shape := .collection
            ((Tree.Particle.group .sequence occurs children).branch.shape.branches.map
              Branch.widen) } := by
  have htable := table_ofBranches bs
  have hrecords := records_table bs
  have hbranches := table_branches hrecords.nodup
  rw [htable] at hrecords hbranches
  refine ⟨htable, hrecords, hbranches, ?_, fun more hmore => ?_, fun f => ?_,
    fun occurs children => ?_⟩
  · rw [hbranches, ← htable]
    rfl
  · exact Keyed.map_key_ofList_append fun b hb => List.mem_map.mpr (hmore b hb)
  · exact congrArg collection (Keyed.ofList_map (f := Branch.change f) (fun _ => rfl) bs)
  · rw [Tree.Particle.branch, Tree.Particle.branch]
    exact congrArg (fun bs => Branch.mk _ _ (collection bs))
      (Keyed.ofList_map (f := Branch.widen) (fun _ => rfl) (Tree.branchesOf children))

end Shape

end SchemaShapes
