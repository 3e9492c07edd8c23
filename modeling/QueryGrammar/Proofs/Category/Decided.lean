import QueryGrammar.Proofs.Workspace.UpFront
/-!
Which categories are accepted. A category is made of many steps, and the checks before the first leave
only what has been pruned in the way of them, with one exception: that its singular may name a category
of entities is settled near the end.
-/
namespace QueryGrammar

open Change Draft Category

/-- Nothing is in the way of named instances: the singular can name a category of entities, which it
has not done before, and nothing that has been pruned has one of the names. -/
structure Draft.EntitiesFit (d : Draft) (suffix : Option SymbolId) (singular : String) : Prop where
  isPart : Name.isPart singular = true
  fresh : ∀ c ∈ d.entityCategories, c.name ≠ singular
  names : d.Unburied [part singular "entity", part singular "possessive"]
  suffix : d.WordFits suffix "possessive-suffix"

namespace Category

/-- The name parts of the roles besides the term. -/
def otherParts (singular : String) : List String := ownRoles.tail.map (part singular)

/-- The symbols that are registered for a category alone, and its semantic. -/
structure OwnSymbols where
  term : SymbolId
  adjective : SymbolId
  head : SymbolId
  subjFilter : SymbolId
  objFilter : SymbolId
  passive : SymbolId
  rhs : SymbolId
  plural : SymbolId
  all : SemanticId

/-- The symbols besides the term, in the order of registration. -/
def OwnSymbols.others (own : OwnSymbols) : List SymbolId :=
  [own.adjective, own.head, own.subjFilter, own.objFilter, own.passive, own.rhs, own.plural]

def OwnSymbols.toList (own : OwnSymbols) : List SymbolId := own.term :: own.others

/-- The symbols that the rules of the filters read. -/
theorem OwnSymbols.parts_subset (own : OwnSymbols) :
    [own.term, own.adjective, own.subjFilter, own.objFilter, own.passive] ⊆ own.toList := by
  simp [toList, others]

/-- The own symbols of a category are among the additions. -/
structure OwnSymbols.MadeIn (own : OwnSymbols) (d : Draft) (a : Additions) (singular : String) :
    Prop where
  stands : ∀ X ∈ own.toList, d.Stands a X
  head : d.Owned a own.head
  plural : d.Owned a own.plural
  rhs : ∃ i, own.rhs = ⟨d.symbols.length + i⟩ ∧
    a.symbols[i]? = some (part singular "rhs", false)
  all : ∃ i name, own.all = ⟨d.vocabulary.size + i⟩ ∧ a.semantics[i]? = some (.argument name)

/-- The symbols of a category. -/
def symbols (c : Category) : List SymbolId :=
  (c.rhsPlus ::
    [c.term, c.adjective, c.head, c.subjFilter, c.objFilter, c.passive, c.rhs, c.plural]) ++
    c.entity.toList ++ c.possessive.toList

/-- The symbols of a category and its category of entities are live. -/
structure LiveIn (c : Category) (d : Draft) : Prop where
  symbols : ∀ X ∈ c.symbols, X ∈ d.liveSymbols
  entities : ∀ id ∈ c.entityCategory, (d.entityCategory? id).isSome

/-- Nothing is in the way of a category that the checks leave. -/
structure Fits (ws : Workspace) (singular : String) (isPerson hasEntities : Bool) : Prop where
  names : ws.draft.Unburied (ownRoles.map (part singular))
  relative : ws.draft.WordFits (ws.relative isPerson) (relativePart isPerson)
  family : ws.draft.FamilyFits ws.connectives (part singular "rhs")
  entities : hasEntities = true → ws.draft.EntitiesFit ws.possessiveSuffix singular

/-- The forms of the term, those that are accepted and those that are replaced. -/
def termForms (spec : CategoryWords) : List String × List String :=
  (spec.plural :: if spec.isPerson then ["people"] else [],
    spec.singular :: if spec.isPerson then ["person"] else [])

end Category

open Registration in
/-- The rest of a category once its own symbols are there. -/
def Workspace.categoryRules (singular : String) (isPerson hasEntities : Bool)
    (entities : List String) (own : OwnSymbols) : Registration Category := do
  addRule own.head (.unary own.term)
  addBinaryRule own.head (.binary own.adjective own.term)
  let relative ← relativePronoun isPerson
  addBinaryRule own.rhs (.binary relative own.subjFilter)
  addRule own.rhs (.unary own.objFilter)
  addBinaryRule own.rhs ((Proposal.binary relative own.objFilter).closing [0])
  addRule own.rhs (.unary own.passive)
  let rhsPlus ← conjunction own.rhs
  let allForest ← ask (·.vocabulary.leaf own.all)
  addRule own.plural ((Proposal.unary own.head).fixed allForest)
  addBinaryRule own.plural (.binary own.head rhsPlus)
  let entities ← if hasEntities then some <$> newEntities singular entities else pure none
  let category : Category :=
    { own with
      rhsPlus
      entityCategory := entities.map (·.1)
      entity := entities.map (·.2.1)
      possessive := entities.map (·.2.2) }
  modify fun ws => { ws with categories := (singular, category) :: ws.categories }
  return category

/-! ### Shared words -/

/-- The forms of the relative pronoun. -/
def Category.relativeForms (isPerson : Bool) : List String :=
  if isPerson then ["who", "that"] else ["that", "which"]

/-- The relative pronoun is put with the shared words. -/
def Workspace.keepRelative (isPerson : Bool) (X : SymbolId) (ws : Workspace) : Workspace :=
  if isPerson then { ws with who := some X } else { ws with that := some X }

theorem Workspace.relativePronoun_eq (isPerson : Bool) : relativePronoun isPerson =
    Registration.wordOnce (·.relative isPerson) (keepRelative isPerson) (relativePart isPerson)
      (relativeForms isPerson) [] (some relativeInsertionCost) := by
  cases isPerson <;> rfl

theorem Workspace.possessiveSuffixOnce_eq : possessiveSuffixOnce =
    Registration.wordOnce (·.possessiveSuffix)
      (fun id ws => { ws with possessiveSuffix := some id }) "possessive-suffix" ["'s"] ["’s"] none := rfl

theorem isWord_relative (isPerson : Bool) : IsWord (relativePart isPerson) (relativeForms isPerson) []
    (some relativeInsertionCost) := by
  cases isPerson with
  | true => exact ⟨.empty, exists_of_isOk (by decide +kernel)⟩
  | false => exact ⟨.empty, exists_of_isOk (by decide +kernel)⟩

theorem isWord_possessiveSuffix : IsWord "possessive-suffix" ["'s"] ["’s"] none :=
  ⟨.empty, exists_of_isOk (by decide +kernel)⟩

theorem Rooted.keepRelative {count : Nat} {t : Workspace} (h : Rooted count t) (isPerson : Bool)
    {X : SymbolId} (hX : X.index < t.draft.symbols.length) :
    Rooted count (Workspace.keepRelative isPerson X t) := by
  cases isPerson with
  | true => exact h.keepWord hX rfl rfl rfl (by simp [Workspace.keepRelative]; grind)
  | false => exact h.keepWord hX rfl rfl rfl (by simp [Workspace.keepRelative]; grind)

theorem Rooted.keepPossessiveSuffix {count : Nat} {t : Workspace} (h : Rooted count t) {X : SymbolId}
    (hX : X.index < t.draft.symbols.length) : Rooted count { t with possessiveSuffix := some X } :=
  h.keepWord hX rfl rfl rfl (by simp; grind)

namespace Stage

variable {count : Nat} {d : Draft} {a : Additions} {r : Workspace}

/-- What a relative pronoun leaves as it was. -/
structure BesideRelative (r r' : Workspace) : Prop where
  connectives : r'.connectives = r.connectives
  families : r'.families = r.families
  possessiveSuffix : r'.possessiveSuffix = r.possessiveSuffix

theorem relativePronoun (count : Nat) (isPerson : Bool)
    (hroom : d.Room a (pending (r.relative isPerson) (relativePart isPerson))) :
    ∃ r', BesideRelative r r' ∧
      Decides (Rooted count) (Stage count d a r) (Workspace.relativePronoun isPerson)
        (d.Unburied (pending (r.relative isPerson) (relativePart isPerson)))
        ((r.relative isPerson).getD ⟨d.symbols.length + a.symbols.length⟩)
        (Stage count d (a.addWords (pending (r.relative isPerson) (relativePart isPerson))) r') := by
  refine ⟨_, ?_, Workspace.relativePronoun_eq isPerson ▸ wordOnce (r.relative isPerson)
    (fun t ht => ?_) (fun hnone => ?_) (isWord_relative isPerson) ?_
    fun X t hX ht => ht.keepRelative isPerson hX⟩
  · split
    · exact ⟨rfl, rfl, rfl⟩
    · cases isPerson <;> exact ⟨rfl, rfl, rfl⟩
  · rw [ht.rest]
    rfl
  · rw [hnone] at hroom
    exact hroom.vacant
  · cases isPerson <;> exact fun _ _ _ => rfl

theorem possessiveSuffixOnce (count : Nat)
    (hroom : d.Room a (pending r.possessiveSuffix "possessive-suffix")) :
    ∃ r', Decides (Rooted count) (Stage count d a r) Workspace.possessiveSuffixOnce
      (d.Unburied (pending r.possessiveSuffix "possessive-suffix"))
      (r.possessiveSuffix.getD ⟨d.symbols.length + a.symbols.length⟩)
      (Stage count d (a.addWords (pending r.possessiveSuffix "possessive-suffix")) r') := by
  refine ⟨_, Workspace.possessiveSuffixOnce_eq ▸ wordOnce r.possessiveSuffix
    (fun t ht => by rw [ht.rest]) (fun hnone => ?_) isWord_possessiveSuffix (fun _ _ _ => rfl)
    fun X t hX ht => ht.keepPossessiveSuffix hX⟩
  rw [hnone] at hroom
  exact hroom.vacant

/-- What named instances answer stands in the draft with the additions. -/
structure EntitiesStand (d : Draft) (b : Additions) (v : EntityCategoryId × SymbolId × SymbolId) :
    Prop where
  category : ∀ e, d.Enlarged b e → (e.entityCategory? v.1).isSome
  entity : d.Stands b v.2.1
  possessive : d.Stands b v.2.2

/-- The entity category, its placeholder and the possessive. They fail if the category has been there
before, even if it has been pruned since. -/
theorem newEntities (count : Nat) {suffix : Option SymbolId} {singular : String}
    (entities : List String) (hnew : a.categories = [])
    (hroom : d.Room a (entityParts suffix singular))
    (hknown : ∀ X ∈ suffix, X.index < d.symbols.length) :
    ∃ v b, a.Continued b ∧ EntitiesStand d b v ∧ ∀ r, r.possessiveSuffix = suffix →
      ∃ r', Decides (Rooted count) (Stage count d a r) (Workspace.newEntities singular entities)
        (d.EntitiesFit suffix singular) v (Stage count d b r') := by
  have hentity : d.Room (a.addCategory (categoryOf singular entities)) (entityParts suffix singular) :=
    { hroom with }
  have hsuffix := hentity.next false
  have hpossessive := hsuffix.addWords
  obtain ⟨a₁, ha₁⟩ : ∃ x, x =
    (a.addCategory (categoryOf singular entities)).addSymbol (part singular "entity") false := ⟨_, rfl⟩
  have howned := owned_last d (a.addCategory (categoryOf singular entities)) (part singular "entity")
  rw [← ha₁] at hsuffix hpossessive howned
  have hone : a.Continued a₁ := ha₁ ▸ (Additions.Continued.addCategory a _).trans (.addSymbol ..)
  have hcategories : a₁.categories = [categoryOf singular entities] := by
    simp [ha₁, Additions.addSymbol, Additions.addCategory, hnew]
  have hwords := Additions.Continued.addWords a₁ (pending suffix "possessive-suffix")
  have hlast := Additions.Continued.addSymbol
    (a₁.addWords (pending suffix "possessive-suffix")) (part singular "possessive") false
  have hplaceholder := howned.stands.mono (hwords.trans hlast).symbols
  refine ⟨(⟨d.entityCategories.length⟩, ⟨d.symbols.length + a.symbols.length⟩,
    ⟨d.symbols.length + (a₁.addWords (pending suffix "possessive-suffix")).symbols.length⟩),
    _, hone.trans (hwords.trans hlast), ⟨fun e he => ?_, hplaceholder, stands_last d _ _ false⟩, ?_⟩
  · have hmade : e.entityCategories = d.entityCategories ++ [categoryOf singular entities] :=
      he.categories.trans (congrArg _ hcategories)
    simp [entityCategory?, hmade, categoryOf, Option.filter]
  intro r hr
  subst hr
  obtain ⟨r', hword⟩ := possessiveSuffixOnce count hsuffix.left
  refine ⟨r', ?_⟩
  have hstands := stands_word_iff hknown hlast.symbols
  have hnameEntity : singular ++ "-entity" = part singular "entity" := (part_eq singular "entity").symm
  have hnamePossessive : singular ++ "-possessive" = part singular "possessive" :=
    (part_eq singular "possessive").symm
  rw [Workspace.newEntities, hnameEntity, hnamePossessive]
  refine (call (enlarges_newEntityCategory hnew singular entities) (.addCategory ..)).step
    (fun h => ⟨h.isPart, h.fresh⟩) fun hcategory => ?_
  refine (newSymbol hentity.vacant).step (fun h => h.names _ (by simp)) fun hfree => ?_
  rw [← ha₁]
  refine (call (enlarges_addPlaceholder howned hcategories rfl) (.refl _)).granted ?_
  refine hword.step (fun h => h.suffix.name) fun hsuffixFree => ?_
  refine (newSymbol hpossessive.vacant).step (fun h => h.names _ (by simp)) fun hlastFree => ?_
  refine (addBinaryRule (owned_last d _ _) (Proposal.plain_binary _ _) (attachable_of_none rfl)).step
    (fun h => ⟨hplaceholder, hstands.mpr h.suffix.live⟩) fun hsteps => ?_
  refine .done ⟨hcategory.1, hcategory.2, ?_, hsuffixFree, hstands.mp hsteps.2⟩ rfl
  simpa [unburied_cons] using ⟨hfree, hlastFree⟩

/-- Without named instances nothing is registered for them. -/
theorem entitiesIf (count : Nat) {suffix : Option SymbolId} {singular : String} (hasEntities : Bool)
    (entities : List String) (hnew : a.categories = [])
    (hroom : d.Room a (if hasEntities then entityParts suffix singular else []))
    (hknown : ∀ X ∈ suffix, X.index < d.symbols.length) :
    ∃ v b, a.Continued b ∧ (∀ x ∈ v, EntitiesStand d b x) ∧ ∀ r, r.possessiveSuffix = suffix →
      ∃ r', Decides (Rooted count) (Stage count d a r)
        (if hasEntities = true then some <$> Workspace.newEntities singular entities else pure none)
        (hasEntities = true → d.EntitiesFit suffix singular) v (Stage count d b r') := by
  cases hasEntities with
  | false =>
    exact ⟨none, a, .refl a, by simp, fun r _ => ⟨r, .done (by simp) rfl⟩⟩
  | true =>
    obtain ⟨v, b, hab, hstand, hdecided⟩ := newEntities count entities hnew hroom hknown
    refine ⟨some v, b, hab, by simpa using hstand, fun r hr => ?_⟩
    obtain ⟨r', hr'⟩ := hdecided r hr
    exact ⟨r', (hr'.map some).congr (by simp)⟩

/-! ### The symbols of a category and their rules -/

theorem newSymbol_at {part : String} {X : SymbolId} (hpart : d.Vacant a part)
    (hX : X.index = d.symbols.length + a.symbols.length) :
    Decides (Rooted count) (Stage count d a r) (Registration.newSymbol [part])
      (¬ d.Buried (Name.bracketed part)) X (Stage count d (a.addSymbol part false) r) := by
  obtain ⟨i⟩ := X
  obtain rfl : i = d.symbols.length + a.symbols.length := hX
  exact newSymbol hpart

theorem roleSymbols {β : Type} {singular : String} {own : OwnSymbols} {g : SymbolId → SymbolId →
      SymbolId → SymbolId → SymbolId → SymbolId → SymbolId → Registration β} {D : Prop} {b : β}
    {R : Workspace → Prop} (hroom : d.Room a (otherParts singular))
    (hnumbers : own.others = (List.range 7).map fun k => ⟨d.symbols.length + a.symbols.length + k⟩)
    (hD : D → d.Unburied (otherParts singular))
    (hrest : d.Unburied (otherParts singular) →
      Decides (Rooted count) (Stage count d (a.addSymbols (otherParts singular)) r)
        (g own.adjective own.head own.subjFilter own.objFilter own.passive own.rhs own.plural) D b R) :
    Decides (Rooted count) (Stage count d a r) (do
      let adjective ← Registration.newSymbol [part singular "adjective"]
      let head ← Registration.newSymbol [part singular "head"]
      let subjFilter ← Registration.newSymbol [part singular "subj-filter"]
      let objFilter ← Registration.newSymbol [part singular "obj-filter"]
      let passive ← Registration.newSymbol [part singular "passive"]
      let rhs ← Registration.newSymbol [part singular "rhs"]
      let plural ← Registration.newSymbol [part singular "plural"]
      g adjective head subjFilter objFilter passive rhs plural) D b R := by
  have hadjective : d.Room a (part singular "adjective" :: _) := hroom
  have hhead := hadjective.next false
  have hsubjFilter := hhead.next false
  have hobjFilter := hsubjFilter.next false
  have hpassive := hobjFilter.next false
  have hrhs := hpassive.next false
  have hplural := hrhs.next false
  have hadded : (((((((a.addSymbol (part singular "adjective") false).addSymbol (part singular "head")
      false).addSymbol (part singular "subj-filter") false).addSymbol (part singular "obj-filter")
        false).addSymbol (part singular "passive") false).addSymbol (part singular "rhs")
          false).addSymbol (part singular "plural") false) = a.addSymbols (otherParts singular) := by
    simp [Additions.addSymbol, Additions.addSymbols, otherParts, ownRoles]
  have hmem := fun (role : String) (hrole : role ∈ ownRoles.tail) (h : D) =>
    hD h (part singular role) (List.mem_map_of_mem hrole)
  simp only [OwnSymbols.others, List.range_succ, List.range_zero, List.map_cons,
    List.map_nil, List.nil_append, List.cons_append, List.cons.injEq, and_true] at hnumbers
  obtain ⟨h₀, h₁, h₂, h₃, h₄, h₅, h₆⟩ := hnumbers
  refine (newSymbol_at (X := own.adjective) hadjective.vacant ?_).step (hmem _ (by decide)) fun h₀ => ?_
  · simp [h₀]
  refine (newSymbol_at (X := own.head) hhead.vacant ?_).step (hmem _ (by decide)) fun h₁ => ?_
  · simp [h₁, Nat.add_assoc]
  refine (newSymbol_at (X := own.subjFilter) hsubjFilter.vacant ?_).step (hmem _ (by decide)) fun h₂ => ?_
  · simp [h₂, Nat.add_assoc]
  refine (newSymbol_at (X := own.objFilter) hobjFilter.vacant ?_).step (hmem _ (by decide)) fun h₃ => ?_
  · simp [h₃, Nat.add_assoc]
  refine (newSymbol_at (X := own.passive) hpassive.vacant ?_).step (hmem _ (by decide)) fun h₄ => ?_
  · simp [h₄, Nat.add_assoc]
  refine (newSymbol_at (X := own.rhs) hrhs.vacant ?_).step (hmem _ (by decide)) fun h₅ => ?_
  · simp [h₅, Nat.add_assoc]
  refine (newSymbol_at (X := own.plural) hplural.vacant ?_).step (hmem _ (by decide)) fun h₆ => ?_
  · simp [h₆, Nat.add_assoc]
  rw [hadded]
  refine hrest ?_
  simpa [otherParts, ownRoles, unburied_cons] using ⟨h₀, h₁, h₂, h₃, h₄, h₅, h₆⟩

/-- The head reads the term, and the filters are read after a relative pronoun, which may be gone. -/
theorem filterRules {β : Type} {isPerson : Bool}
    {term adjective head subjFilter objFilter passive rhs : SymbolId} {g : Registration β} {D : Prop}
    {b : β} {R : Workspace → Prop}
    (hroom : d.Room a (pending (r.relative isPerson) (relativePart isPerson)))
    (hknown : ∀ X ∈ r.relative isPerson, X.index < d.symbols.length)
    (hhead : d.Owned a head) (hrhs : d.Owned a rhs)
    (hstands : ∀ X ∈ [term, adjective, subjFilter, objFilter, passive], d.Stands a X)
    (hD : D → d.WordFits (r.relative isPerson) (relativePart isPerson))
    (hrest : d.WordFits (r.relative isPerson) (relativePart isPerson) → ∀ r', BesideRelative r r' →
      Decides (Rooted count)
        (Stage count d (a.addWords (pending (r.relative isPerson) (relativePart isPerson))) r')
        g D b R) :
    Decides (Rooted count) (Stage count d a r) (do
      Registration.addRule head (.unary term)
      Registration.addBinaryRule head (.binary adjective term)
      let relative ← Workspace.relativePronoun isPerson
      Registration.addBinaryRule rhs (.binary relative subjFilter)
      Registration.addRule rhs (.unary objFilter)
      Registration.addBinaryRule rhs ((Proposal.binary relative objFilter).closing [0])
      Registration.addRule rhs (.unary passive)
      g) D b R := by
  obtain ⟨r', hbeside, hword⟩ := relativePronoun count isPerson hroom
  have hrelative := stands_word_iff hknown
    (List.prefix_refl (a.addWords (pending (r.relative isPerson) (relativePart isPerson))).symbols)
  have hwords := (Additions.Continued.addWords a
    (pending (r.relative isPerson) (relativePart isPerson))).symbols
  simp only [List.forall_mem_cons, List.not_mem_nil, false_imp_iff, implies_true, and_true] at hstands
  obtain ⟨hterm, hadjective, hsubjFilter, hobjFilter, hpassive⟩ := hstands
  have hrhs := hrhs.mono hwords
  have hnone : ∀ {a' : Additions} {p : Proposal}, p.semantic = none → d.Attachable a' p := attachable_of_none
  refine (addRule hhead (Proposal.plain_unary _) (hnone rfl)).met hterm ?_
  refine (addBinaryRule hhead (Proposal.plain_binary _ _) (hnone rfl)).met ⟨hadjective, hterm⟩ ?_
  refine hword.step (fun h => (hD h).name) fun hfree => ?_
  refine (addBinaryRule hrhs (Proposal.plain_binary _ _) (hnone rfl)).step
    (fun h => ⟨hrelative.mpr (hD h).live, hsubjFilter.mono hwords⟩) fun hlive => ?_
  refine (addRule hrhs (Proposal.plain_unary _) (hnone rfl)).met (hobjFilter.mono hwords) ?_
  refine (addBinaryRule hrhs ((Proposal.plain_binary _ _).closing (by simp)) (hnone rfl)).met
    ⟨hlive.1, hobjFilter.mono hwords⟩ ?_
  refine (addRule hrhs (Proposal.plain_unary _) (hnone rfl)).met (hpassive.mono hwords) ?_
  exact hrest ⟨hfree, hrelative.mp hlive.1⟩ r' hbeside

/-- The semantic of an addition can stand alone if it is an argument. -/
theorem leaf_eq {t : Workspace} (ht : Stage count d a r t) {i : Nat} {name : String}
    (hi : a.semantics[i]? = some (.argument name)) :
    t.draft.vocabulary.leaf ⟨d.vocabulary.size + i⟩ = .ok [.mk ⟨d.vocabulary.size + i⟩ []] := by
  have hget : t.draft.vocabulary.get? ⟨d.vocabulary.size + i⟩ = some (.argument name) := by
    rw [Vocabulary.get?, ht.draft.definitions, Vocabulary.size,
      List.getElem?_append_right (Nat.le_add_right _ _), Nat.add_sub_cancel_left, hi]
  simp only [Vocabulary.leaf, Vocabulary.definition, hget, bind, Except.bind]
  rfl

/-- The plural reads the head, alone or with a conjunction of filters. -/
theorem pluralRules {β : Type} {singular name : String} {S : Option Connectives}
    {head rhs plural : SymbolId} {i j : Nat} {g : SymbolId → Registration β} {D : Prop} {b : β}
    {R : Workspace → Prop} (hrhs : rhs = ⟨d.symbols.length + i⟩)
    (hname : a.symbols[i]? = some (part singular "rhs", false))
    (hpart : Name.isPart (part singular "rhs") = true)
    (hall : a.semantics[j]? = some (.argument name)) (hhead : d.Stands a head)
    (hplural : d.Owned a plural) (hnew : r.families.lookup rhs = none)
    (hconnectives : r.connectives = S) (hopen : d.FamilyOpen a S (part singular "rhs"))
    (hD : D → d.FamilyFits S (part singular "rhs"))
    (hrest : d.FamilyFits S (part singular "rhs") → ∀ r',
      r'.possessiveSuffix = r.possessiveSuffix →
      Decides (Rooted count) (Stage count d ((a.connect S).addSymbols
        (Conjunction.familyNames (part singular "rhs")).toList) r')
        (g ((familyAt d a S rhs).symbol .root)) D b R) :
    Decides (Rooted count) (Stage count d a r) (do
      let rhsPlus ← Workspace.conjunction rhs
      let allForest ← Registration.ask (·.vocabulary.leaf ⟨d.vocabulary.size + j⟩)
      Registration.addRule plural ((Proposal.unary head).fixed allForest)
      Registration.addBinaryRule plural (.binary head rhsPlus)
      g rhsPlus) D b R := by
  subst hrhs hconnectives
  have hcontinued := (continued_connect a r.connectives).trans
    (.addSymbols _ (Conjunction.familyNames (part singular "rhs")).toList)
  have howner : ∀ t, Stage count d a r t → ∃ s, t.draft.get? ⟨d.symbols.length + i⟩ = some s ∧
      Name.stem s.name = part singular "rhs" := by
    intro t ht
    obtain ⟨s, hget, hbracketed, -⟩ := ht.draft.exists_added hname
    exact ⟨s, hget, by rw [hbracketed, Name.stem_bracketed hpart]⟩
  have hleaf := getElem?_of_isPrefix hcontinued.semantics hall
  have hindex := (List.getElem?_eq_some_iff.mp hleaf).1
  have hroot := (owned_familyAt d a r.connectives ⟨d.symbols.length + i⟩ (part singular "rhs")
    .root).stands
  refine (conjunction hnew howner hopen).step hD fun hfits => ?_
  refine ask_bind fun t ht => ⟨_, ht.leaf_eq hleaf, ?_⟩
  refine (addRule (hplural.mono hcontinued.symbols) ((Proposal.plain_unary _).fixed _)
    (attachable_of_some rfl ?_)).met (hhead.mono hcontinued.symbols) ?_
  · simpa [Attachment.ids, Node.forestIds, Node.ids] using hindex
  refine (addBinaryRule (hplural.mono hcontinued.symbols) (Proposal.plain_binary _ _)
    (attachable_of_none rfl)).met ⟨hhead.mono hcontinued.symbols, hroot⟩ ?_
  exact hrest hfits _ rfl

/-- What is registered for a category once it has its own symbols: the rules, the relative pronoun,
the family of the filters and the named instances. -/
theorem categoryRules (count : Nat) {singular : String} {isPerson hasEntities : Bool}
    (entities : List String) {own : OwnSymbols} (hown : own.MadeIn d a singular)
    (hroom : d.Room a (pending (r.relative isPerson) (relativePart isPerson) ++
      (connectiveParts r.connectives ++ ((Conjunction.familyNames (part singular "rhs")).toList ++
        if hasEntities then entityParts r.possessiveSuffix singular else []))))
    (hcategories : a.categories = []) (hpart : Name.isPart (part singular "rhs") = true)
    (hnew : r.families.lookup own.rhs = none)
    (hnames : r.connectives = none → ∀ k ∈ d.vocabulary.definitions ++ a.semantics,
      k.name ≠ Conjunction.intersectName ∧ k.name ≠ Conjunction.unionName)
    (hwords : ∀ X, some X ∈ [r.relative isPerson, r.possessiveSuffix] → X.index < d.symbols.length)
    (hseparators : ∀ X ∈ separators r.connectives, X.index < d.symbols.length) :
    ∃ c : Category, Decides (Rooted count) (Stage count d a r)
      (Workspace.categoryRules singular isPerson hasEntities entities own)
      (d.WordFits (r.relative isPerson) (relativePart isPerson) ∧
        d.FamilyFits r.connectives (part singular "rhs") ∧
        (hasEntities = true → d.EntitiesFit r.possessiveSuffix singular)) c
      (fun t => Rooted count t ∧ c.LiveIn t.draft) := by
  obtain ⟨a₁, ha₁⟩ : ∃ x, x = a.addWords (pending (r.relative isPerson) (relativePart isPerson)) :=
    ⟨_, rfl⟩
  have hroom₁ := hroom.addWords
  have hfirst : a.Continued a₁ := ha₁ ▸ .addWords a _
  rw [← ha₁] at hroom₁
  obtain ⟨a₂, ha₂⟩ : ∃ x, x = (a₁.connect r.connectives).addSymbols
    (Conjunction.familyNames (part singular "rhs")).toList := ⟨_, rfl⟩
  have hroom₂ := (room_connect hroom₁).addSymbols
  have hsecond : a₁.Continued a₂ := ha₂ ▸ (continued_connect _ _).trans (.addSymbols ..)
  rw [← ha₂] at hroom₂
  have hempty : a₂.categories = [] := by
    rw [ha₂, ha₁]
    cases r.connectives <;> exact hcategories
  obtain ⟨v, b, hlast, hentities, hdecided⟩ := entitiesIf count hasEntities entities hempty hroom₂
    fun X hX => hwords X (by simp [Option.mem_def.mp hX])
  obtain ⟨root, hroot⟩ : ∃ x, x = (familyAt d a₁ r.connectives own.rhs).symbol .root := ⟨_, rfl⟩
  have hrootStands : d.Stands a₂ root := ha₂ ▸ hroot ▸ (owned_familyAt ..).stands
  obtain ⟨i, hrhs, hname⟩ := hown.rhs
  obtain ⟨j, name, hid, hall⟩ := hown.all
  refine ⟨⟨own.term, own.adjective, own.head, own.subjFilter, own.objFilter, own.passive, own.rhs, root,
    own.plural, own.all, v.map (·.1), v.map (·.2.1), v.map (·.2.2)⟩, ?_⟩
  unfold Workspace.categoryRules
  refine filterRules hroom.left (fun X hX => hwords X (by simp [Option.mem_def.mp hX])) hown.head
    ⟨i, _, hrhs, hname⟩ (fun X hX => hown.stands X (own.parts_subset hX)) (fun h => h.1)
    fun hrelative r₁ hbeside => ?_
  rw [← ha₁, hid]
  refine pluralRules (S := r.connectives) hrhs (getElem?_of_isPrefix hfirst.symbols hname) hpart
    (getElem?_of_isPrefix hfirst.semantics hall) (hown.head.mono hfirst.symbols).stands
    (hown.plural.mono hfirst.symbols) (hbeside.families ▸ hnew) hbeside.connectives
    ⟨?_, ?_, hseparators⟩ (fun h => h.2.1) fun hfamily r₂ hr₂ => ?_
  · rw [← List.append_assoc] at hroom₁
    exact hroom₁.left
  · rw [ha₁]
    exact hnames
  rw [← ha₂, ← hroot]
  obtain ⟨r₃, hr₃⟩ := hdecided r₂ (hr₂.trans hbeside.possessiveSuffix)
  refine Decides.ite_bind (hr₃.step (fun h => h.2.2) fun hfits => ?_)
  refine (Decides.modify fun t ht => ⟨⟨ht.rooted.count, ht.rooted.operands, ht.rooted.words,
    ht.rooted.functions⟩, ?_, ?_⟩).granted (.done ⟨hrelative, hfamily, hfits⟩ rfl)
  · intro X hX
    refine ht.draft.mem_liveSymbols_iff.mpr ?_
    simp only [Category.symbols, List.mem_append, Option.mem_toList, Option.map_eq_some_iff] at hX
    rcases hX with (hX | ⟨x, hx, rfl⟩) | ⟨x, hx, rfl⟩
    · rcases List.mem_cons.mp hX with rfl | hX
      · exact hrootStands.mono hlast.symbols
      · exact (hown.stands X hX).mono ((hfirst.trans hsecond).trans hlast).symbols
    · exact (hentities x hx).entity
    · exact (hentities x hx).possessive
  · intro id hid
    obtain ⟨x, hx, rfl⟩ := Option.mem_map.mp hid
    exact (hentities x hx).category _ ht.draft

/-! ### The whole -/

/-- The first call of a registration: once it has gone ahead, symbols have been added. -/
theorem first {ws : Workspace} {f : Draft → Outcome (α × Draft)} {v : α} {b : Additions} {C : Prop}
    (hws : Rooted 0 ws) (hf : ws.draft.Enlarges {} f C v b) (hb : 0 < b.symbols.length) (hC : C) :
    Decides (Rooted (ws.draft.symbols.length + 1)) (· = ws) (Registration.call f) True v
      (Stage (ws.draft.symbols.length + 1) ws.draft b ws) := by
  rintro t rfl
  simp only [Registration.call, perform_within, perform_call]
  cases he : f t.draft with
  | error err => exact absurd hC (hf.of_error (.refl _) he)
  | ok p =>
    obtain ⟨-, hv, hadded⟩ := hf.of_ok (.refl _) he
    have hstage := (refl hws).enlarge hadded ⟨List.nil_prefix, List.nil_prefix⟩
    refine ⟨trivial, hv, { hstage with rooted := { hstage.rooted with count := ?_ } }⟩
    rw [hadded.length]
    omega

end Stage

theorem Category.all_ne (plural : String) :
    "all-" ++ plural ≠ Conjunction.intersectName ∧ "all-" ++ plural ≠ Conjunction.unionName := by
  have hhead : ("all-" ++ plural).toList.head? = some 'a' := by simp
  constructor
  · intro h
    rw [h] at hhead
    exact absurd hhead (by decide)
  · intro h
    rw [h] at hhead
    exact absurd hhead (by decide)

theorem Rooted.lookup_eq_none {count : Nat} {ws : Workspace} (h : Rooted count ws) {X : SymbolId}
    (hX : ws.draft.symbols.length ≤ X.index) : ws.families.lookup X = none := by
  rw [List.lookup_eq_none_iff]
  intro x hx
  have hlt := h.operands x hx
  have hne : X ≠ x.1 := fun heq => by rw [heq] at hX; omega
  simpa using hne

namespace Category

/-- What a category adds before its rules. -/
def ownAdditions (singular plural : String) : Additions where
  symbols := (part singular "term", true) :: (otherParts singular).map fun p => (p, false)
  semantics := [.argument ("all-" ++ plural)]

/-- The numbers that the own symbols of a category get. -/
def ownSymbols (d : Draft) : OwnSymbols where
  term := ⟨d.symbols.length⟩
  adjective := ⟨d.symbols.length + 1⟩
  head := ⟨d.symbols.length + 2⟩
  subjFilter := ⟨d.symbols.length + 3⟩
  objFilter := ⟨d.symbols.length + 4⟩
  passive := ⟨d.symbols.length + 5⟩
  rhs := ⟨d.symbols.length + 6⟩
  plural := ⟨d.symbols.length + 7⟩
  all := ⟨d.vocabulary.size⟩

theorem madeIn_ownAdditions (d : Draft) (singular plural : String) :
    (ownSymbols d).MadeIn d (ownAdditions singular plural) singular where
  stands X hX := by
    have hnumbers : (ownSymbols d).toList = (List.range 8).map fun i => ⟨d.symbols.length + i⟩ := rfl
    rw [hnumbers] at hX
    obtain ⟨i, hi, rfl⟩ := List.mem_map.mp hX
    exact Or.inr ⟨Nat.le_add_right _ _, Nat.add_lt_add_left (List.mem_range.mp hi) _⟩
  head := ⟨2, _, rfl, rfl⟩
  plural := ⟨7, _, rfl, rfl⟩
  rhs := ⟨6, rfl, rfl⟩
  all := ⟨0, _, rfl, rfl⟩

theorem newCategory_eq (spec : CategoryWords) {singular plural : String} {hasEntities : Bool}
    (hsingular : Name.slug spec.singular = singular) (hplural : Name.slug spec.plural = plural)
    (hhas : (!spec.entities.isEmpty) = hasEntities) : Workspace.newCategory spec = (do
      Change.ofOutcome (check (← get) singular plural spec.isPerson hasEntities)
      let term ← Registration.addWord (part singular "term") (termForms spec).1 (termForms spec).2 none
      let adjective ← Registration.newSymbol [part singular "adjective"]
      let head ← Registration.newSymbol [part singular "head"]
      let subjFilter ← Registration.newSymbol [part singular "subj-filter"]
      let objFilter ← Registration.newSymbol [part singular "obj-filter"]
      let passive ← Registration.newSymbol [part singular "passive"]
      let rhs ← Registration.newSymbol [part singular "rhs"]
      let pluralSymbol ← Registration.newSymbol [part singular "plural"]
      let all ← Registration.call (·.newSemantic (.argument ("all-" ++ plural)))
      Workspace.categoryRules singular spec.isPerson hasEntities spec.entities
        ⟨term, adjective, head, subjFilter, objFilter, passive, rhs, pluralSymbol, all⟩) := by
  subst hsingular hplural hhas
  rw [part_eq _ "term"]
  rfl

end Category

open Stage in
/-- Once everything is checked and the term is registered, a category is accepted exactly if nothing is
in its way. -/
theorem newCategory_decided {ws : Workspace} {spec : CategoryWords} {singular plural : String}
    {hasEntities : Bool} (hws : Rooted 0 ws)
    (hseparators : ∀ X ∈ separators ws.connectives, X.index < ws.draft.symbols.length)
    (hsingular : Name.slug spec.singular = singular) (hplural : Name.slug spec.plural = plural)
    (hhas : (!spec.entities.isEmpty) = hasEntities)
    (hcheck : Category.check ws singular plural spec.isPerson hasEntities = .ok ())
    (hterm : IsWord (part singular "term") (termForms spec).1 (termForms spec).2 none)
    (hfree : ¬ ws.draft.Buried (Name.bracketed (part singular "term"))) :
    ∃ c : Category, Decides (Rooted (ws.draft.symbols.length + 1)) (· = ws)
      (Workspace.newCategory spec) (Fits ws singular spec.isPerson hasEntities) c
      (fun t => Rooted 0 t ∧ c.LiveIn t.draft) := by
  have hcleared := cleared_of_check hcheck
  have hroom : ws.draft.Room {} (part singular "term" :: (otherParts singular ++
      (pending (ws.relative spec.isPerson) (relativePart spec.isPerson) ++
        (connectiveParts ws.connectives ++ ((Conjunction.familyNames (part singular "rhs")).toList ++
          if hasEntities then entityParts ws.possessiveSuffix singular else []))))) := by
    simpa [parts, otherParts, ownRoles] using hcleared.room
  have hothers := hroom.next true
  have hrest : ws.draft.Room (ownAdditions singular plural) _ :=
    hothers.addSymbols.addSemantic (.argument ("all-" ++ plural))
  have hnames : ws.connectives = none → ∀ k ∈ ws.draft.vocabulary.definitions ++
      (ownAdditions singular plural).semantics,
      k.name ≠ Conjunction.intersectName ∧ k.name ≠ Conjunction.unionName := by
    intro hnone k hk
    rcases List.mem_append.mp hk with hk | hk
    · exact (Conjunction.free_of_checkFamilyNames hcleared.family).2 hnone k hk
    · rw [List.mem_singleton.mp hk]
      exact Category.all_ne plural
  have hwords : ∀ X, some X ∈ [ws.relative spec.isPerson, ws.possessiveSuffix] →
      X.index < ws.draft.symbols.length := by
    intro X hX
    refine hws.words X ?_
    cases hperson : spec.isPerson <;> simp [Workspace.relative, hperson] at hX ⊢ <;> grind
  obtain ⟨c, hc⟩ := categoryRules (ws.draft.symbols.length + 1) spec.entities
    (madeIn_ownAdditions ws.draft singular plural) hrest rfl (hcleared.roles "rhs" (by decide)).1
    (hws.lookup_eq_none (Nat.le_add_right _ _)) hnames hwords hseparators
  refine ⟨c, ?_⟩
  rw [newCategory_eq spec hsingular hplural hhas]
  refine Decides.get_bind fun t ht => ?_
  subst ht
  refine (Decides.ofOutcome hcheck).granted ?_
  refine (first hws (enlarges_addWord hroom.vacant hterm) (by simp) hfree).granted ?_
  have hnumbers : (ownSymbols t.draft).others = (List.range 7).map fun k =>
      ⟨t.draft.symbols.length + (Additions.addSymbol {} (part singular "term") true).symbols.length + k⟩ := by
    simp [OwnSymbols.others, ownSymbols, List.range_succ, Nat.add_assoc]
  have hneeds : Fits t singular spec.isPerson hasEntities → t.draft.Unburied (otherParts singular) :=
    fun h p hp => h.names p (List.mem_cons_of_mem _ hp)
  refine roleSymbols hothers.left hnumbers hneeds fun hroles => ?_
  have hfresh : ∀ k ∈ t.draft.vocabulary.definitions ++ ([] : List Semantic), k.name ≠ "all-" ++ plural := by
    simpa using hcleared.allFree
  have hall : Decides (Rooted (t.draft.symbols.length + 1))
      (Stage (t.draft.symbols.length + 1) t.draft
        ((Additions.addSymbol {} (part singular "term") true).addSymbols (otherParts singular)) t)
      (Registration.call (·.newSemantic (.argument ("all-" ++ plural)))) True ⟨t.draft.vocabulary.size⟩
      (Stage (t.draft.symbols.length + 1) t.draft (ownAdditions singular plural) t) :=
    newSemantic hcleared.all hfresh rfl (show Vocabulary.isCost 0.0 = true by decide +kernel)
  refine hall.granted ?_
  refine (hc.congr ⟨fun h => ⟨?_, h.1, h.2.1, h.2.2⟩, fun h => ⟨h.relative, h.family, h.entities⟩⟩).weaken
    (fun _ h => h) fun t ht => ⟨{ ht.1 with count := Nat.zero_le _ }, ht.2⟩
  exact List.forall_mem_cons.mpr ⟨hfree, hroles⟩

end QueryGrammar
