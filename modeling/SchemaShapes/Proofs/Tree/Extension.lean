import SchemaShapes.Proofs.Traversal
import SchemaShapes.Proofs.Tree.Language
import SchemaShapes.Proofs.Tree.Unfolding

/-! Content of extensions. The content of a type that extends another one accepts what the content
of its base accepts followed by what its own particle accepts, and so it goes along a chain of
extensions. Sequences that occur once are put together into one. -/
namespace SchemaShapes

open Schema

namespace Catalog

variable {c : Catalog} {α : Type} (a : Tree.Children α)

/-! ### What content accepts -/

/-- The sequences of children that particles accept as the content of a type. -/
def contentLanguage (c : Catalog) (ps : List (Located Particle)) : Converted (Language α) :=
  (c.contentTree ps).map (Tree.Particle.language a)

/-- Content accepts what its particles accept, one after the other. -/
theorem contentLanguage_eq (ps : List (Located Particle)) :
    c.contentLanguage a ps = (ps.mapM c.particleTree).map fun trees =>
      (trees.map (Tree.Particle.language a)).prod := by
  rw [contentLanguage]
  match ps with
  | [] => exact congrArg Except.ok (Tree.language_empty a)
  | [p] =>
    have hone : c.contentTree [p] = c.particleTree p := rfl
    rw [hone, List.mapM_cons]
    cases c.particleTree p with
    | error e => rfl
    | ok tree => exact congrArg Except.ok (mul_one (tree.language a)).symm
  | p :: q :: ps =>
    rw [contentTree_several]
    cases (p :: q :: ps).mapM c.particleTree with
    | error e => rfl
    | ok trees =>
      refine congrArg Except.ok ?_
      rw [Tree.language_sequence, Tree.language_flatMap_parts]

theorem contentLanguage_append (ps qs : List (Located Particle)) :
    c.contentLanguage a (ps ++ qs) = do
      let l ← c.contentLanguage a ps
      let m ← c.contentLanguage a qs
      return l * m := by
  rw [contentLanguage_eq, contentLanguage_eq, contentLanguage_eq, List.mapM_append]
  cases ps.mapM c.particleTree with
  | error e => rfl
  | ok trees =>
    cases qs.mapM c.particleTree with
    | error e => rfl
    | ok trees' =>
      have happend : ((trees ++ trees').map (Tree.Particle.language a)).prod =
          (trees.map (Tree.Particle.language a)).prod *
            (trees'.map (Tree.Particle.language a)).prod := by
        rw [List.map_append, List.prod_append]
      exact congrArg Except.ok happend

/-! ### What types accept -/

theorem contentTypeOfParticles_ne_unknown (mixed : Bool) (ps : List (Located Particle)) :
    contentTypeOfParticles mixed ps ≠ .unknown := by
  unfold contentTypeOfParticles
  split <;> exact ContentType.noConfusion

theorem eq_nil_of_textOnly {mixed : Bool} {ps : List (Located Particle)}
    (h : contentTypeOfParticles mixed ps = .textOnly) : ps = [] := by
  unfold contentTypeOfParticles at h
  split at h
  · rfl
  · cases h
  · rfl
  · cases h

/-- A type whose content is only text has no particles. -/
theorem content_of_textOnly (hf : c.fault = none) {t : Located ComplexType}
    (h : c.contentType t = .textOnly) : c.content t = [] := by
  rw [contentType_eq hf] at h
  split at h
  · next hc => rw [content_eq hf, hc]
  · split at h
    · exact eq_nil_of_textOnly h
    · cases h
  · exact eq_nil_of_textOnly h

/-- The contents of a type accept what its content accepts, unless its base makes no sense. -/
theorem contents_language (hf : c.fault = none) {t : Located ComplexType}
    (ht : c.contentType t ≠ .unknown) :
    (c.complexTypeTree t).map (·.contents.language a) = c.contentLanguage a (c.content t) := by
  rw [(conversionUnfolds hf).complexType, contentLanguage]
  split
  · next htext =>
    rw [content_of_textOnly hf htext]
    exact congrArg Except.ok (Tree.language_empty a).symm
  · next hunknown => exact absurd hunknown ht
  · cases c.contentTree (c.content t) <;> rfl

/-! ### Extensions -/

/-- A complex type extends the complex content of another one. -/
def Extends (c : Catalog) (t u : Located ComplexType) : Prop :=
  ∃ base own, t.value.content = .complex .extension base own ∧ c.namedType base = .complex u

/-- What the particle that a type declares itself is written out as. Without content it is nothing. -/
def ownTree (c : Catalog) (t : Located ComplexType) : Converted Tree.Particle :=
  match t.value.ownParticle with
  | some p => if p.isEmpty then .ok .empty else c.particleTree ⟨t.place.part 0, p⟩
  | none => .ok .empty

theorem ownTree_eq (t : Located ComplexType) : c.ownTree t = c.contentTree (ownContent t) := by
  unfold ownTree ownContent
  cases t.value.ownParticle with
  | none => rfl
  | some p =>
    rw [Option.filter_some]
    by_cases hempty : p.isEmpty
    · simp only [hempty]
      rfl
    · simp only [hempty]
      rfl

section

variable {t u : Located ComplexType}

theorem Extends.content_eq (hf : c.fault = none) (h : c.Extends t u) :
    c.content t = c.content u ++ ownContent t := by
  obtain ⟨base, own, hc, hu⟩ := h
  rw [Catalog.content_eq hf, hc]
  simp only [hu]

theorem Extends.contentType_eq (hf : c.fault = none) (h : c.Extends t u) :
    c.contentType t = contentTypeOfParticles t.value.mixed (c.content t) := by
  obtain ⟨base, own, hc, hu⟩ := h
  rw [Catalog.contentType_eq hf, hc]
  simp only [hu]

/-- A type that does not extend another one has its own particle as its content. -/
theorem content_of_not_extension (hf : c.fault = none)
    (h : ∀ base own, t.value.content ≠ .complex .extension base own) :
    c.content t = ownContent t := by
  rw [content_eq hf]
  split
  · next hc => rw [ownContent, (base_of_simple hc).2]; rfl
  · next hc => exact absurd hc (h _ _)
  · rfl

theorem Extends.contentLanguage_eq (hf : c.fault = none) (h : c.Extends t u) :
    c.contentLanguage a (c.content t) = do
      let l ← c.contentLanguage a (c.content u)
      let m ← (c.ownTree t).map (Tree.Particle.language a)
      return l * m := by
  rw [h.content_eq hf, contentLanguage_append, ownTree_eq]
  rfl

end

/-! ### Chains of extensions -/

/-- Types that extend one another, from a first one on. -/
inductive ExtensionChain (c : Catalog) (b : Located ComplexType) :
    List (Located ComplexType) → Located ComplexType → Prop
  | nil : ExtensionChain c b [] b
  | extend {ts : List (Located ComplexType)} {t u : Located ComplexType}
    (h : ExtensionChain c b ts u) (ht : c.Extends t u) : ExtensionChain c b (ts ++ [t]) t

/-- Along a chain, each type puts its own words behind those of the types before it. -/
theorem ExtensionChain.contentLanguage_eq (hf : c.fault = none) {b t : Located ComplexType}
    {ts : List (Located ComplexType)} (h : c.ExtensionChain b ts t) :
    c.contentLanguage a (c.content t) = do
      let l ← c.contentLanguage a (c.content b)
      let trees ← ts.mapM c.ownTree
      return l * (trees.map (Tree.Particle.language a)).prod := by
  induction h with
  | nil =>
    cases c.contentLanguage a (c.content b) with
    | error e => rfl
    | ok l => exact congrArg Except.ok (mul_one l).symm
  | @extend ts t u h ht ih =>
    rw [ht.contentLanguage_eq a hf, ih, List.mapM_append]
    cases c.contentLanguage a (c.content b) with
    | error e => rfl
    | ok l =>
      cases ts.mapM c.ownTree with
      | error e => rfl
      | ok trees =>
        rw [List.mapM_cons]
        cases c.ownTree t with
        | error e => rfl
        | ok tree =>
          have hproduct : l * (trees.map (Tree.Particle.language a)).prod * tree.language a =
              l * ((trees ++ [tree]).map (Tree.Particle.language a)).prod := by
            rw [List.map_append, List.prod_append, List.map_singleton, List.prod_singleton,
              mul_assoc]
          exact congrArg Except.ok hproduct

/-- If the first type of a chain extends nothing, the words are those of the particles of all types
of the chain. -/
theorem ExtensionChain.contentLanguage_eq_own (hf : c.fault = none) {b t : Located ComplexType}
    {ts : List (Located ComplexType)} (h : c.ExtensionChain b ts t)
    (hb : ∀ base own, b.value.content ≠ .complex .extension base own) :
    c.contentLanguage a (c.content t) = ((b :: ts).mapM c.ownTree).map fun trees =>
      (trees.map (Tree.Particle.language a)).prod := by
  rw [h.contentLanguage_eq a hf, contentLanguage, content_of_not_extension hf hb, ← ownTree_eq,
    List.mapM_cons]
  cases c.ownTree b with
  | error e => rfl
  | ok tree => cases ts.mapM c.ownTree <;> rfl

/-! ### Flat sequences -/

/-- The particles of content that is a sequence occurring once have the children of that sequence
as their parts. -/
theorem exists_trees_of_sequence {ps : List (Located Particle)} {children : List Tree.Particle}
    (h : c.contentTree ps = .ok (.group .sequence .once children)) : ps ≠ [] ∧ ∃ trees,
    ps.mapM c.particleTree = .ok trees ∧ trees.flatMap Tree.Particle.parts = children := by
  match ps with
  | [] => cases h
  | [p] =>
    have hp : c.particleTree p = .ok (.group .sequence .once children) := h
    refine ⟨List.cons_ne_nil _ _, [.group .sequence .once children], ?_, ?_⟩
    · rw [List.mapM_cons, hp]
      rfl
    · simp [Tree.Particle.parts]
  | p :: q :: ps =>
    rw [contentTree_several] at h
    cases htrees : (p :: q :: ps).mapM c.particleTree with
    | error e =>
      rw [htrees] at h
      cases h
    | ok trees =>
      rw [htrees] at h
      cases h
      exact ⟨List.cons_ne_nil _ _, trees, rfl, rfl⟩

/-- Content that is put together from two such sequences is one again. -/
theorem contentTree_append {ps qs : List (Located Particle)} {bs os : List Tree.Particle}
    (hps : c.contentTree ps = .ok (.group .sequence .once bs))
    (hqs : c.contentTree qs = .ok (.group .sequence .once os)) :
    c.contentTree (ps ++ qs) = .ok (.group .sequence .once (bs ++ os)) := by
  obtain ⟨hp, trees, htrees, rfl⟩ := exists_trees_of_sequence hps
  obtain ⟨hq, trees', htrees', rfl⟩ := exists_trees_of_sequence hqs
  have hall : (ps ++ qs).mapM c.particleTree = .ok (trees ++ trees') := by
    rw [List.mapM_append, htrees, htrees']
    rfl
  obtain ⟨p, q, rest, hrest⟩ : ∃ p q rest, ps ++ qs = p :: q :: rest := by
    obtain ⟨p, ps, rfl⟩ := List.exists_cons_of_ne_nil hp
    obtain ⟨q, qs, rfl⟩ := List.exists_cons_of_ne_nil hq
    cases ps with
    | nil => exact ⟨p, q, qs, rfl⟩
    | cons p' ps => exact ⟨p, p', ps ++ q :: qs, rfl⟩
  rw [hrest] at hall ⊢
  rw [contentTree_several, hall, ← List.flatMap_append]
  rfl

/-- A type that is made of particles is written out from them. -/
theorem complexTypeTree_of_particles (hf : c.fault = none) {t : Located ComplexType}
    (htext : c.contentType t ≠ .textOnly) (hknown : c.contentType t ≠ .unknown) :
    c.complexTypeTree t = (c.contentTree (c.content t)).map
      (⟨c.convertAttributes t, .complex ·, t.value.mixed⟩) := by
  rw [(conversionUnfolds hf).complexType]
  split
  · next h => exact absurd h htext
  · next h => exact absurd h hknown
  · cases c.contentTree (c.content t) <;> rfl

theorem complexTypeTree_of_content (hf : c.fault = none) {t : Located ComplexType}
    {tree : Tree.Particle} (ht : c.contentType t ≠ .unknown) (hne : c.content t ≠ [])
    (h : c.contentTree (c.content t) = .ok tree) :
    c.complexTypeTree t = .ok ⟨c.convertAttributes t, .complex tree, t.value.mixed⟩ := by
  have htext : c.contentType t ≠ .textOnly := fun htext => hne (content_of_textOnly hf htext)
  rw [complexTypeTree_of_particles hf htext ht, h]
  rfl

theorem contentType_ne_unknown_of_ok (hf : c.fault = none) {t : Located ComplexType}
    {description : Tree.Description} (h : c.complexTypeTree t = .ok description) :
    c.contentType t ≠ .unknown := by
  intro hunknown
  rw [(conversionUnfolds hf).complexType, hunknown] at h
  cases h

end Catalog

namespace SchemaSet

/-- The contents of a type that extends another one accept what the content of its base accepts
followed by what its own particle accepts, and they are written out exactly if both are. The content
of the base accepts what the base does. Along a chain of extensions from a type that extends nothing
the words are those of the particles of all its types. Two sequences that occur once become one. -/
theorem extension_content (s : SchemaSet) {α : Type} (a : Tree.Children α)
    {t u : Located ComplexType} (h : s.Extends t u) :
    ((s.complexTypeTree t).map (·.contents.language a) = do
      let first ← s.contentTree (s.content u)
      let own ← s.ownTree t
      return first.language a * own.language a) ∧
    (∀ description, s.complexTypeTree u = .ok description →
      (s.contentTree (s.content u)).map (Tree.Particle.language a) =
        .ok (description.contents.language a)) ∧
    (∀ b ts, s.ExtensionChain b ts t →
      (∀ base own, b.value.content ≠ .complex .extension base own) →
      (s.complexTypeTree t).map (·.contents.language a) = ((b :: ts).mapM s.ownTree).map fun trees =>
        (trees.map (Tree.Particle.language a)).prod) ∧
    ∀ bs os, s.contentTree (s.content u) = .ok (.group .sequence .once bs) →
      s.ownTree t = .ok (.group .sequence .once os) → ∃ description,
      s.complexTypeTree t = .ok description ∧
      description.contents = .complex (.group .sequence .once (bs ++ os)) := by
  have hf := s.fault_eq_none
  have hcontent : s.contentType t ≠ .unknown := by
    rw [h.contentType_eq hf]
    exact Catalog.contentTypeOfParticles_ne_unknown _ _
  have hlanguage := Catalog.contents_language a hf hcontent
  refine ⟨?_, fun description hu => ?_, fun b ts hchain hb => ?_, fun bs os hbs hos => ?_⟩
  · rw [hlanguage, h.contentLanguage_eq a hf, Catalog.contentLanguage]
    cases s.contentTree (s.content u) with
    | error e => rfl
    | ok first => cases s.ownTree t <;> rfl
  · have hbase := Catalog.contents_language a hf (Catalog.contentType_ne_unknown_of_ok hf hu)
    rw [hu] at hbase
    exact hbase.symm
  · rw [hlanguage, hchain.contentLanguage_eq_own a hf hb]
  · rw [Catalog.ownTree_eq] at hos
    have htree := Catalog.contentTree_append hbs hos
    have hne : s.content t ≠ [] := by
      rw [h.content_eq hf]
      exact List.append_ne_nil_of_left_ne_nil (Catalog.exists_trees_of_sequence hbs).1 _
    rw [← h.content_eq hf] at htree
    exact ⟨_, Catalog.complexTypeTree_of_content hf hcontent hne htree, rfl⟩

/-- A note has a subject. -/
def note : Located ComplexType :=
  ⟨.top (.complexType 0), ⟨some ⟨none, "note"⟩, false, .particle (some (.group ⟨.sequence, .once,
    [.element .once ⟨⟨none, "subject"⟩, false, .named (.xs "string")⟩]⟩)), []⟩⟩

/-- A letter is a note with a text. -/
def letter : Located ComplexType :=
  ⟨.top (.complexType 1), ⟨some ⟨none, "letter"⟩, false, .complex .extension ⟨none, "note"⟩
    (some (.group ⟨.sequence, .once,
      [.element .once ⟨⟨none, "text"⟩, false, .named (.xs "string")⟩]⟩)), []⟩⟩

/-- A parcel is a letter with anything in it, and it may have a weight. -/
def parcel : Located ComplexType :=
  ⟨.top (.complexType 2), ⟨some ⟨none, "parcel"⟩, true, .complex .extension ⟨none, "letter"⟩
    (some (.group ⟨.sequence, .once, [.any .anyNumber none,
      .element .optional ⟨⟨none, "weight"⟩, false, .named (.xs "decimal")⟩]⟩)), []⟩⟩

def mail : SchemaSet where
  documents := [⟨none, { Document.empty none with
    complexTypes := [note.value, letter.value, parcel.value] }⟩]
  fault_eq_none := by decide +kernel

/-- The contents of a parcel are one sequence of what the three types have. -/
theorem extension_content_parcel : mail.Extends parcel letter ∧
    mail.ExtensionChain note [letter, parcel] parcel ∧
    (∀ (α : Type) (a : Tree.Children α),
      (mail.complexTypeTree parcel).map (·.contents.language a) =
        ([note, letter, parcel].mapM mail.ownTree).map fun trees =>
          (trees.map (Tree.Particle.language a)).prod) ∧
    (∃ description, mail.complexTypeTree letter = .ok description ∧
      ∀ (α : Type) (a : Tree.Children α),
        (mail.contentTree (mail.content letter)).map (Tree.Particle.language a) =
          .ok (description.contents.language a)) ∧
    ∃ bs os description,
      bs.map Tree.Particle.tag = [.record (some "subject"), .record (some "text")] ∧
      os.map Tree.Particle.tag = [.record (some anyElement), .record (some "weight")] ∧
      mail.complexTypeTree parcel = .ok description ∧
      description.contents = .complex (.group .sequence .once (bs ++ os)) := by
  have hletter : mail.Extends letter note := ⟨_, _, rfl, rfl⟩
  have hparcel : mail.Extends parcel letter := ⟨_, _, rfl, rfl⟩
  have hchain : mail.ExtensionChain note [letter, parcel] parcel :=
    .extend (.extend .nil hletter) hparcel
  have hbs : (mail.contentTree (mail.content letter)).toOption.any fun p => p.sequence?.any
      fun bs => decide (bs.map Tree.Particle.tag =
        [.record (some "subject"), .record (some "text")]) := by
    decide +kernel
  have hos : (mail.ownTree parcel).toOption.any fun p => p.sequence?.any
      fun os => decide (os.map Tree.Particle.tag =
        [.record (some anyElement), .record (some "weight")]) := by
    decide +kernel
  obtain ⟨p, hp, hbs⟩ := (Option.any_eq_true _ _).mp hbs
  obtain ⟨bs, hbs, htags⟩ := (Option.any_eq_true _ _).mp hbs
  obtain ⟨q, hq, hos⟩ := (Option.any_eq_true _ _).mp hos
  obtain ⟨os, hos, htags'⟩ := (Option.any_eq_true _ _).mp hos
  rw [Tree.Particle.eq_of_sequence? hbs] at hp
  rw [Tree.Particle.eq_of_sequence? hos] at hq
  have hlanguage := fun (α : Type) (a : Tree.Children α) =>
    (extension_content mail a hparcel).2.2.1 note _ hchain (by simp [note])
  have hbase : (mail.complexTypeTree letter).toOption.isSome := by decide +kernel
  obtain ⟨base, hbase⟩ := Option.isSome_iff_exists.mp hbase
  have hbase := eq_ok_of_toOption hbase
  have hwords := fun (α : Type) (a : Tree.Children α) =>
    (extension_content mail a hparcel).2.1 base hbase
  obtain ⟨description, hdescription, hcontents⟩ :=
    (extension_content mail (⟨fun _ _ => True, fun _ => True⟩ : Tree.Children QName) hparcel).2.2.2
      bs os (eq_ok_of_toOption hp) (eq_ok_of_toOption hq)
  exact ⟨hparcel, hchain, hlanguage, ⟨base, hbase, hwords⟩, bs, os, description, of_decide_eq_true htags,
    of_decide_eq_true htags', hdescription, hcontents⟩

end SchemaSet

end SchemaShapes
