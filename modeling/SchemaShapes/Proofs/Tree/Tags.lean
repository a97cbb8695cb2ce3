import SchemaShapes.Proofs.Tree.Records

/-! Tags of elements and wildcards. The tag of an element is its written name, and one written name
is kept for wildcards. So the children of a group are told apart by their tags as long as no
declared name has a closing brace in it, but for elements that have the name of wildcards. -/
namespace SchemaShapes

open Schema
open SchemaShapes.Tree (Within)

/-- The name whose written form is the tag of wildcards. -/
def wildcardName : QName := .of (some "anyNs") "anyElement"

theorem wildcardName_text : wildcardName.text = anyElement := by
  decide +kernel

theorem wildcardName_unbraced : wildcardName.Unbraced := by
  decide +kernel

/-! ### Children by their tags -/

/-- What an element or a wildcard is in a collection of its siblings. -/
inductive Tree.Slot where
  | element (name : QName)
  | wildcard
  deriving DecidableEq

namespace Tree

/-- The name that the tag of a slot is made from. -/
def Slot.name : Slot → QName
  | .element name => name
  | .wildcard => wildcardName

def Particle.slot? : Particle → Option Slot
  | .any _ => some .wildcard
  | .element _ e => some (.element e.name)
  | _ => none

theorem Particle.tag_of_slot {p : Particle} {slot : Slot} (h : p.slot? = some slot) :
    p.tag = .record (some slot.name.text) := by
  cases p with
  | any occurs =>
    cases h
    rw [Slot.name, wildcardName_text]
    rfl
  | element occurs e =>
    cases h
    rfl
  | _ => cases h

theorem Particle.tag_eq_iff {p q : Particle} {a b : Slot} (ha : p.slot? = some a)
    (hb : q.slot? = some b) (ha' : a.name.Unbraced) (hb' : b.name.Unbraced) :
    p.tag = q.tag ↔ a.name = b.name := by
  rw [tag_of_slot ha, tag_of_slot hb]
  refine ⟨fun h => ?_, fun h => by rw [h]⟩
  exact QName.text_injective ha' hb' (Option.some.inj (BranchTag.record.inj h))

/-- What stands for an element or a wildcard has the tag of a slot. -/
theorem Particle.exists_slot_of_tag {p : Particle} {name : String}
    (h : p.tag = .record (some name)) : ∃ slot, p.slot? = some slot := by
  cases p with
  | any occurs => exact ⟨_, rfl⟩
  | element occurs e => exact ⟨_, rfl⟩
  | _ => cases h

/-- The elements and the wildcards among the children of a group are told apart in its collection:
two of them have one tag only if they are elements of one name or wildcards, and an element or a
wildcard is replaced by nothing else. An element that has the name of wildcards passes for one. -/
structure ToldApart (k : Compositor) (children : List Particle) (bs : List Branch) : Prop where
  elements : ∀ occurs e occurs' e', .element occurs e ∈ children → .element occurs' e' ∈ children →
    ((Particle.element occurs e).tag = (Particle.element occurs' e').tag ↔ e.name = e'.name)
  wildcards : ∀ occurs e occurs', .element occurs e ∈ children → .any occurs' ∈ children →
    ((Particle.element occurs e).tag = (Particle.any occurs').tag ↔ e.name = wildcardName)
  element_kept : ∀ occurs e, .element occurs e ∈ children → e.name ≠ wildcardName →
    ∃ occurs' e', .element occurs' e' ∈ children ∧ e'.name = e.name ∧
      k.adapt (Particle.element occurs' e').branch ∈ bs
  wildcard_kept : ∀ occurs, .any occurs ∈ children →
    (∀ occurs' e, .element occurs' e ∈ children → e.name ≠ wildcardName) →
    k.adapt wildcardBranch ∈ bs

section

variable {k : Compositor} {children : List Particle}

/-- A tag of a child is the tag of a branch, and that is the branch of a child. -/
theorem exists_branch_of_mem {p : Particle} (hp : p ∈ children) :
    ∃ q ∈ children, q.tag = p.tag ∧
      k.adapt q.branch ∈ Keyed.ofList Branch.key (children.map fun p => k.adapt p.branch) := by
  have hkey : p.tag ∈ (children.map fun p => k.adapt p.branch).map Branch.key :=
    List.mem_map.mpr ⟨_, List.mem_map_of_mem hp, k.adapt_tag p.branch⟩
  obtain ⟨b, hb, htag⟩ := List.mem_map.mp (Keyed.mem_map_ofList_iff.mpr hkey)
  obtain ⟨q, hq, rfl⟩ := List.mem_map.mp (Keyed.mem_of_mem_ofList hb)
  exact ⟨q, hq, (k.adapt_tag q.branch).symm.trans htag, hb⟩

/-- Children with names that have no closing brace are told apart. -/
theorem toldApart_of_unbraced
    (hnames : ∀ occurs e, .element occurs e ∈ children → e.name.Unbraced) :
    ToldApart k children (Keyed.ofList Branch.key (children.map fun p => k.adapt p.branch)) := by
  have hunbraced : ∀ p ∈ children, ∀ slot, p.slot? = some slot → slot.name.Unbraced := by
    intro p hp slot hslot
    cases p with
    | any occurs =>
      cases hslot
      exact wildcardName_unbraced
    | element occurs e =>
      cases hslot
      exact hnames occurs e hp
    | _ => cases hslot
  have htag : ∀ p ∈ children, ∀ q ∈ children, ∀ a b, p.slot? = some a → q.slot? = some b →
      (p.tag = q.tag ↔ a.name = b.name) := fun p hp q hq a b ha hb =>
    Particle.tag_eq_iff ha hb (hunbraced p hp a ha) (hunbraced q hq b hb)
  have hkept : ∀ p ∈ children, ∀ a, p.slot? = some a → ∃ q ∈ children, ∃ b, q.slot? = some b ∧
      b.name = a.name ∧
      k.adapt q.branch ∈ Keyed.ofList Branch.key (children.map fun p => k.adapt p.branch) := by
    intro p hp a ha
    obtain ⟨q, hq, hqp, hmem⟩ := exists_branch_of_mem (k := k) hp
    obtain ⟨b, hb⟩ := Particle.exists_slot_of_tag (hqp.trans (Particle.tag_of_slot ha))
    exact ⟨q, hq, b, hb, (htag q hq p hp b a hb ha).mp hqp, hmem⟩
  constructor
  · exact fun occurs e occurs' e' h h' => htag _ h _ h' _ _ rfl rfl
  · exact fun occurs e occurs' h h' => htag _ h _ h' _ _ rfl rfl
  · intro occurs e h hne
    obtain ⟨q, hq, b, hb, hname, hmem⟩ := hkept _ h _ rfl
    cases q with
    | any occurs' =>
      cases hb
      exact absurd hname.symm hne
    | element occurs' e' =>
      cases hb
      exact ⟨occurs', e', hq, hname, hmem⟩
    | _ => cases hb
  · intro occurs h hne
    obtain ⟨q, hq, b, hb, hname, hmem⟩ := hkept _ h _ rfl
    cases q with
    | any occurs' => exact hmem
    | element occurs' e' =>
      cases hb
      exact absurd hname (hne occurs' e' hq)
    | _ => cases hb

end

/-- The children of the group that is the content of an element. -/
def Element.children : Element → List Particle
  | ⟨_, .complex ⟨_, .complex (.group _ _ children), _⟩, _⟩ => children
  | _ => []

theorem Element.exists_group {e : Element} (h : e.children ≠ []) :
    ∃ k occurs, Within (.group k occurs e.children) (.element .once e) := by
  unfold Element.children at h ⊢
  split at h
  · next k occurs children _ _ => exact ⟨k, occurs, .content .here⟩
  · exact absurd rfl h

end Tree

/-! ### Groups of a catalog -/

namespace Catalog

variable {c : Catalog}

/-- The elements that are declared, at any depth. -/
def declaredElements (c : Catalog) : List Element :=
  c.nodes.filterMap fun
    | .element e => some e.value
    | _ => none

theorem mem_declaredElements {e : Located Element} (h : .element e ∈ c.nodes) :
    e.value ∈ c.declaredElements :=
  List.mem_filterMap.mpr ⟨_, h, rfl⟩

end Catalog

namespace SchemaSet

/-- If no declared element has a closing brace in its name, then elements and wildcards are told
apart in the collection of every group that is written out, at any depth. -/
theorem children_toldApart (s : SchemaSet) (hnames : ∀ e ∈ s.declaredElements, e.name.Unbraced)
    {p : Tree.Particle} (hp : s.Yields p) {k : Compositor} {occurs : Occurs}
    {children : List Tree.Particle} (hgroup : Within (.group k occurs children) p) :
    ∃ bs, (Tree.Particle.group k occurs children).branch.shape = .collection bs ∧
      Tree.ToldApart k children bs := by
  refine ⟨_, Tree.shape_group_eq k occurs children, Tree.toldApart_of_unbraced ?_⟩
  intro bounds f hf
  obtain ⟨e, he, has⟩ := hp.allStand s.fault_eq_none bounds f ((Within.child hf .here).trans hgroup)
  rw [has.name_eq]
  exact hnames _ (Catalog.mem_declaredElements he)

/-- The fence of the garden holds posts, anything else and a group. -/
theorem children_toldApart_fence : (∀ e ∈ garden.declaredElements, e.name.Unbraced) ∧
    ∃ tree k occurs bs, garden.elementTree gardenFence = .ok tree ∧
      tree.children.map Tree.Particle.slot? =
        [some (.element ⟨none, "post"⟩), some .wildcard, none] ∧
      (Tree.Particle.group k occurs tree.children).branch.shape = .collection bs ∧
      Tree.ToldApart k tree.children bs := by
  have hnames : ∀ e ∈ garden.declaredElements, e.name.Unbraced := by decide +kernel
  have htree : (garden.elementTree gardenFence).toOption.any fun tree => decide
      (tree.children.map Tree.Particle.slot? =
        [some (.element ⟨none, "post"⟩), some .wildcard, none]) := by
    decide +kernel
  obtain ⟨tree, htree, hslots⟩ := (Option.any_eq_true _ _).mp htree
  have htree := eq_ok_of_toOption htree
  have hslots := of_decide_eq_true hslots
  have hfence : .element gardenFence ∈ garden.nodes := Catalog.mem_nodes_of_topLevel (.element rfl)
  obtain ⟨k, occurs, hgroup⟩ := Tree.Element.exists_group (e := tree) fun h => by simp [h] at hslots
  have hyields : garden.Yields (.element .once tree) := .element hfence htree
  obtain ⟨bs, hbs, hapart⟩ := children_toldApart garden hnames hyields hgroup
  exact ⟨hnames, tree, k, occurs, bs, htree, hslots, hbs, hapart⟩

/-- A hall with an element that has the name of wildcards, and anything else behind it. -/
def hallText : String :=
  "<schema xmlns=\"http://www.w3.org/2001/XMLSchema\" xmlns:t=\"anyNs\" " ++
    "targetNamespace=\"anyNs\"><element name=\"anyElement\" type=\"int\"/>" ++
    "<element name=\"hall\"><complexType><sequence><element ref=\"t:anyElement\"/><any/>" ++
    "</sequence></complexType></element></schema>"

/-- The name of wildcards is that of any other element, so the element in the hall is replaced by
what stands behind it. -/
theorem children_not_toldApart_hall : ∃ set tree k occurs,
    SchemaSet.compile hallText (.ofTexts []) = .ok set ∧
    set.tree ⟨some "hall", none⟩ = .ok tree ∧
    Within (.group k occurs tree.children) (.element .once tree) ∧
    tree.children.map Tree.Particle.slot? = [some (.element wildcardName), some .wildcard] ∧
    tree.children.map Tree.Particle.tag =
      [.record (some anyElement), .record (some anyElement)] ∧
    tree.shape.properties.map (·.shape.branches.map Branch.tag) =
      [[.record (some anyElement)]] := by
  have hset : (SchemaSet.compile hallText (.ofTexts [])).toOption.any fun set =>
      (set.tree ⟨some "hall", none⟩).toOption.any fun tree => decide
        (tree.children.map Tree.Particle.slot? = [some (.element wildcardName), some .wildcard] ∧
        tree.children.map Tree.Particle.tag =
          [.record (some anyElement), .record (some anyElement)] ∧
        tree.shape.properties.map (·.shape.branches.map Branch.tag) =
          [[.record (some anyElement)]]) := by
    decide +kernel
  obtain ⟨set, hcompile, hset⟩ := (Option.any_eq_true _ _).mp hset
  obtain ⟨tree, htree, hset⟩ := (Option.any_eq_true _ _).mp hset
  obtain ⟨hslots, htags, hbranches⟩ := of_decide_eq_true hset
  obtain ⟨k, occurs, hgroup⟩ := Tree.Element.exists_group (e := tree) fun h => by simp [h] at hslots
  exact ⟨set, tree, k, occurs, eq_ok_of_toOption hcompile, eq_ok_of_toOption htree, hgroup, hslots,
    htags, hbranches⟩

end SchemaSet

end SchemaShapes
