import SchemaShapes.Proofs.Xml.Qualified

/-! Scopes of tags. What a label means inside a tag is said by the declarations in the tag and in
those around it, the innermost of which counts. The labels that are bound from the start can only be
declared to mean what they mean anyway. -/
namespace SchemaShapes.Xml

open Text (cutAt cutAt_of_notMem)

/-- The tag of an event, if it has one. -/
def Event.tag? : Event → Option Tag
  | .start t | .empty t => some t
  | _ => none

/-- The attributes of a tag, or none if they cannot be read. -/
def Tag.attributes (t : Tag) : List Attribute :=
  match readAttributes t.inside with
  | .ok attributes => attributes
  | .error _ => []

/-- The key of the declaration of a label. -/
def declarationKey (label : List Char) : List Char := xmlnsLabel ++ ':' :: label

/-- A key declares a label. That of the default namespace is empty, and its colon may be missing. -/
def Declares (label key : List Char) : Prop :=
  key = declarationKey label ∨ label = [] ∧ key = xmlnsLabel

instance (label key : List Char) : Decidable (Declares label key) :=
  inferInstanceAs (Decidable (key = declarationKey label ∨ label = [] ∧ key = xmlnsLabel))

/-- The namespace that the last declaration of a label in a tag gives, as it is written. -/
def Tag.declared? (label : List Char) (t : Tag) : Option (List Char) :=
  (t.attributes.findRev? (Declares label ·.key)).map (·.value)

/-- The namespace that a tag binds a label to, as it is written. -/
def Tag.binding? (label : List Char) (t : Tag) : Option (List Char) :=
  (t.attributes.find? (·.key = declarationKey label)).map (·.value)

/-- The tags that are open after an event, innermost first. -/
def Event.opens (tags : List Tag) : Event → List Tag
  | .start t => t :: tags
  | .finish _ => tags.tail
  | _ => tags

/-- The tags that are open after events. -/
def openTags (es : List Event) : List Tag := es.foldl Event.opens []

/-! ### Declarations -/

section

variable {scope inner : Scope} {label : List Char} {as : List Attribute}

theorem declaredLabel?_eq_some_iff {key : List Char} :
    declaredLabel? key = some label ↔ Declares label key := by
  unfold declaredLabel? Declares
  split
  · rename_i hkey
    simp [hkey, declarationKey, xmlnsLabel, eq_comm]
  split
  · rename_i hkey hdeclares
    obtain ⟨hbegins, hcolon⟩ := hdeclares
    obtain ⟨rest, rfl⟩ := List.isPrefixOf_iff_prefix.mp hbegins
    cases rest with
    | nil => simp [xmlnsLabel] at hcolon
    | cons c rest =>
      obtain rfl : c = ':' := by simpa [xmlnsLabel] using hcolon
      simp [declarationKey, xmlnsLabel]
  · rename_i hkey hdeclares
    refine ⟨nofun, ?_⟩
    rintro (rfl | ⟨-, rfl⟩)
    · exact absurd ⟨by simp [declarationKey], by simp [declarationKey, xmlnsLabel]⟩ hdeclares
    · exact absurd rfl hkey

theorem declares_iff_of_ne {key : List Char} (hlabel : label ≠ []) :
    Declares label key ↔ key = declarationKey label :=
  or_iff_left fun h => hlabel h.1

/-- Inside a tag a label has the binding that the tag declares last, or else the one from around
it. -/
theorem find?_declare (h : scope.declare as = .ok inner) :
    (inner.find? (·.label = label)).map Binding.uri =
      ((as.findRev? (Declares label ·.key)).map Attribute.value).or
        ((scope.find? (·.label = label)).map Binding.uri) := by
  induction as generalizing scope with
  | nil =>
    cases h
    rfl
  | cons a rest ih =>
    have hkey : declaredLabel? a.key = some label ↔ Declares label a.key :=
      declaredLabel?_eq_some_iff
    rw [Scope.declare] at h
    split at h
    · rename_i hdeclared
      have hother : ¬Declares label a.key := by
        rw [← hkey, hdeclared]
        nofun
      rw [ih h, List.findRev?]
      cases rest.findRev? (Declares label ·.key) <;> simp [hother]
    · rename_i declared hdeclared
      split at h
      · cases h
      rw [hdeclared, Option.some.injEq] at hkey
      rw [ih h, List.findRev?]
      by_cases hsame : declared = label
      · cases rest.findRev? (Declares label ·.key) <;> simp [hsame, hkey.mp hsame]
      · cases rest.findRev? (Declares label ·.key) <;> simp [hsame, mt hkey.mpr hsame]

theorem Tag.nodup_keys (t : Tag) : (t.attributes.map Attribute.key).Nodup := by
  unfold Tag.attributes
  split
  · next as has => exact (readAttributes_eq_ok_iff.mp has).2
  · exact List.nodup_nil

/-- The only attribute with a key is the last one. -/
theorem findRev?_eq_find?_key {key : List Char} (h : (as.map Attribute.key).Nodup) :
    as.findRev? (·.key = key) = as.find? (·.key = key) := by
  induction as with
  | nil => rfl
  | cons a rest ih =>
    obtain ⟨hnew, hrest⟩ := List.nodup_cons.mp h
    rw [List.findRev?, ih hrest]
    by_cases hkey : a.key = key
    · have hnone : rest.find? (·.key = key) = none :=
        List.find?_eq_none.mpr fun b hb hb' =>
          hnew (List.mem_map.mpr ⟨b, hb, by simpa [hkey] using hb'⟩)
      simp [hnone, hkey]
    · rw [List.find?_cons_of_neg (by simpa using hkey)]
      cases rest.find? (·.key = key) <;> simp [hkey]

theorem Tag.binding?_eq_declared? (t : Tag) (hlabel : label ≠ []) :
    t.binding? label = t.declared? label := by
  simp only [Tag.binding?, Tag.declared?, declares_iff_of_ne hlabel]
  rw [findRev?_eq_find?_key t.nodup_keys]

theorem isReserved_of_declare (h : scope.declare as = .ok inner) {a : Attribute} (ha : a ∈ as)
    (hdeclared : declaredLabel? a.key = some label) :
    isReserved a.key label a.value = false := by
  induction as generalizing scope with
  | nil => cases ha
  | cons b rest ih =>
    rw [Scope.declare] at h
    rcases List.mem_cons.mp ha with rfl | ha
    · rw [hdeclared] at h
      simp only at h
      split at h
      · cases h
      · rename_i hreserved
        exact Bool.eq_false_iff.mpr hreserved
    · split at h
      · exact ih h ha
      · split at h
        · cases h
        · exact ih h ha

end

/-! ### Scopes -/

/-- Scopes inside open tags, both innermost first. -/
inductive Scoped : List Scope → List Tag → Prop
  | nil : Scoped [] []
  | cons {scopes : List Scope} {tags : List Tag} {t u : Tag} {inner : Scope}
      (h : Scoped scopes tags) (ht : qualifyTag (scopes.headD []) t = .ok (u, inner)) :
      Scoped (inner :: scopes) (t :: tags)

theorem Scoped.tail {scopes : List Scope} {tags : List Tag} (h : Scoped scopes tags) :
    Scoped scopes.tail tags.tail := by
  cases h with
  | nil => exact .nil
  | cons h _ => exact h

theorem eq_of_qualifyTag {scope inner : Scope} {t u : Tag}
    (h : qualifyTag scope t = .ok (u, inner)) :
    readAttributes t.inside = .ok t.attributes ∧ scope.declare t.attributes = .ok inner ∧
      ∃ bs, List.Forall₂ (fun a b => qualifyAttribute inner a = .ok b) t.attributes bs ∧
        u = ⟨t.name, bs.flatMap Attribute.render⟩ := by
  obtain ⟨as, has, h⟩ := exists_of_bind_eq_ok h
  obtain ⟨inner', hinner, h⟩ := exists_of_bind_eq_ok h
  obtain ⟨bs, hbs, h⟩ := exists_of_bind_eq_ok h
  cases h
  obtain rfl : t.attributes = as := by rw [Tag.attributes, has]
  exact ⟨has, hinner, bs, forall₂_of_mapM hbs, rfl⟩

section

variable {scopes : List Scope} {tags : List Tag} {label ns : List Char}

/-- The binding of a label is its last declaration in the innermost tag that declares it. -/
theorem Scoped.find?_declared (h : Scoped scopes tags) (label : List Char) :
    ((scopes.headD []).find? (·.label = label)).map Binding.uri =
      tags.findSome? (Tag.declared? label) := by
  induction h with
  | nil => rfl
  | @cons scopes tags t u inner _ ht ih =>
    obtain ⟨-, hinner, -⟩ := eq_of_qualifyTag ht
    have hfind : (inner.find? (·.label = label)).map Binding.uri =
        (t.declared? label).or ((scopes.headD []).find? (·.label = label) |>.map Binding.uri) :=
      find?_declare hinner
    rw [ih] at hfind
    rw [List.headD_cons, hfind, List.findSome?_cons]
    cases t.declared? label <;> rfl

theorem Scoped.find? (h : Scoped scopes tags) (hlabel : label ≠ []) :
    ((scopes.headD []).find? (·.label = label)).map Binding.uri =
      tags.findSome? (Tag.binding? label) := by
  have hdeclared : Tag.binding? label = Tag.declared? label :=
    funext fun t => t.binding?_eq_declared? hlabel
  rw [hdeclared, h.find?_declared]

/-- A label that is declared is none that is bound from the start, or has the namespace that it is
bound to from the start. -/
theorem Scoped.reserved (h : Scoped scopes tags)
    (hns : tags.findSome? (Tag.binding? label) = some ns) :
    label ≠ xmlnsLabel ∧ (label = xmlLabel → ns = xmlNamespace) := by
  induction h with
  | nil => cases hns
  | @cons scopes tags t u inner _ ht ih =>
    rw [List.findSome?_cons] at hns
    cases hbinding : t.binding? label with
    | none =>
      rw [hbinding] at hns
      exact ih hns
    | some uri =>
      rw [hbinding] at hns
      obtain rfl := Option.some.inj hns
      obtain ⟨a, ha, rfl⟩ := Option.map_eq_some_iff.mp hbinding
      have hkey : a.key = declarationKey label := by simpa using List.find?_some ha
      obtain ⟨-, hinner, -⟩ := eq_of_qualifyTag ht
      have hreserved := isReserved_of_declare hinner (List.mem_of_find?_eq_some ha)
        (declaredLabel?_eq_some_iff.mpr (.inl hkey))
      have hne : a.key ≠ xmlnsLabel := by simp [hkey, declarationKey, xmlnsLabel]
      rw [isReserved, if_neg hne] at hreserved
      split at hreserved
      · rename_i hxml
        refine ⟨by rw [hxml]; decide, fun _ => by simpa using hreserved⟩
      · rename_i hxml
        simp only [decide_eq_false_iff_not, not_or] at hreserved
        exact ⟨hreserved.1, fun h => absurd h hxml⟩

/-- Before a colon a label means the namespace that the innermost declaration of it gives. -/
theorem Scoped.namespaceOf (h : Scoped scopes tags) (hlabel : label ≠ [])
    (hns : tags.findSome? (Tag.binding? label) = some ns) (hne : ns ≠ []) :
    (scopes.headD []).namespaceOf label = some ns := by
  obtain ⟨hxmlns, hxml⟩ := h.reserved hns
  by_cases heq : label = xmlLabel
  · rw [Scope.namespaceOf, if_pos heq, hxml heq]
  · obtain ⟨binding, hbinding, rfl⟩ := Option.map_eq_some_iff.mp ((h.find? hlabel).trans hns)
    rw [Scope.namespaceOf, if_neg heq, if_neg hxmlns, if_neg hlabel, Scope.lookup, hbinding]
    exact if_neg hne

/-- A name with a bound label is written with the namespace of the label in braces. -/
theorem Scope.qualify?_of_namespaceOf {scope : Scope} {name : List Char}
    (hns : scope.namespaceOf label = some ns) (hlabel : label ≠ []) (hcolon : ':' ∉ label)
    (hbrace : label.head? ≠ some '\x7b') (hname : name ≠ []) :
    scope.qualify? (label ++ ':' :: name) = some ('\x7b' :: ns ++ '\x7d' :: name) := by
  have hresolve : scope.resolve (label ++ ':' :: name) = some (ns, name) := by
    rw [Scope.resolve, cutAt_of_notMem hcolon]
    simp [hns]
  unfold Scope.qualify?
  split
  · rename_i c label' heq
    cases label with
    | nil => exact absurd rfl hlabel
    | cons d label =>
      obtain ⟨rfl, -⟩ := List.cons.inj heq
      exact absurd rfl hbrace
  · rw [hresolve]
    cases name with
    | nil => exact absurd rfl hname
    | cons c name => rfl

end

/-! ### Events -/

/-- A tag among events is qualified in the scope of the tags that are open where it stands. -/
theorem exists_qualifyTag {scopes : List Scope} {tags : List Tag} {es fs : List Event}
    (h : qualifyEvents scopes es = .ok fs) (hs : Scoped scopes tags) {i : ℕ} {e : Event} {t : Tag}
    (he : es[i]? = some e) (ht : e.tag? = some t) :
    ∃ scopes' u inner f, Scoped scopes' ((es.take i).foldl Event.opens tags) ∧
      qualifyTag (scopes'.headD []) t = .ok (u, inner) ∧ fs[i]? = some f ∧ f.tag? = some u := by
  fun_induction qualifyEvents scopes es generalizing tags fs i with
  | case1 => simp at he
  | case2 scopes tag rest ih =>
    obtain ⟨⟨u, inner⟩, hu, h⟩ := exists_of_bind_eq_ok h
    obtain ⟨fs, hfs, h⟩ := exists_of_bind_eq_ok h
    cases h
    cases i with
    | zero =>
      obtain rfl : Event.start tag = e := by simpa using he
      obtain rfl := Option.some.inj ht
      exact ⟨scopes, u, inner, _, hs, hu, rfl, rfl⟩
    | succ i => exact ih _ hfs (hs.cons hu) he
  | case3 scopes tag rest ih =>
    obtain ⟨⟨u, inner⟩, hu, h⟩ := exists_of_bind_eq_ok h
    obtain ⟨fs, hfs, h⟩ := exists_of_bind_eq_ok h
    cases h
    cases i with
    | zero =>
      obtain rfl : Event.empty tag = e := by simpa using he
      obtain rfl := Option.some.inj ht
      exact ⟨scopes, u, inner, _, hs, hu, rfl, rfl⟩
    | succ i => exact ih hfs hs he
  | case4 scopes name rest ih =>
    obtain ⟨fs, hfs, h⟩ := exists_of_bind_eq_ok h
    cases h
    cases i with
    | zero =>
      obtain rfl : Event.finish name = e := by simpa using he
      cases ht
    | succ i => exact ih hfs hs.tail he
  | case5 scopes d rest hstart hempty hfinish ih =>
    obtain ⟨fs, hfs, h⟩ := exists_of_bind_eq_ok h
    cases h
    cases i with
    | zero =>
      obtain rfl : d = e := by simpa using he
      cases d with
      | start t => exact absurd rfl (hstart t)
      | empty t => exact absurd rfl (hempty t)
      | _ => cases ht
    | succ i =>
      have hopens : d.opens tags = tags := by
        cases d with
        | start t => exact absurd rfl (hstart t)
        | finish name => exact absurd rfl (hfinish name)
        | _ => rfl
      rw [List.take_succ_cons, List.foldl_cons, hopens]
      exact ih hfs hs he

end SchemaShapes.Xml
