import QueryGrammar.Workspace.Conjunction
/-!
Categories: the symbols that a countable kind of thing comes with.

    [user-head]       -> [user-term] | [user-adjective] [user-term]
    [user-rhs]        -> [who] [user-subj-filter] | [user-obj-filter]
                       | [who] [user-obj-filter] | [user-passive]
    [user-plural]     -> [user-head]                 all-users
                       | [user-head] [user-rhs+]
    [user-possessive] -> [user-entity] [possessive-suffix]

Content modules give rules to the adjective, the filters and the passive; those that never receive
any disappear when the grammar is finished.
-/
namespace QueryGrammar

namespace Category

/-- The cost of suggesting an omitted relative pronoun. -/
def relativeInsertionCost : Float := 1.0

/-- The kinds of symbols a category has, in the order of registration. -/
def roles : List String :=
  ["term", "adjective", "head", "subj-filter", "obj-filter", "passive", "rhs", "plural",
    "entity", "possessive"]

/-- The shared words that a category would register on first use must be free. -/
def checkWordNames (ws : Workspace) (isPerson hasEntities : Bool) : Outcome Unit := do
  if isPerson then
    if ws.who.isNone then ws.draft.checkFree "[who]"
  else if ws.that.isNone then ws.draft.checkFree "[that]"
  if hasEntities && ws.possessiveSuffix.isNone then ws.draft.checkFree "[possessive-suffix]"

/-- Everything that a new category needs to be free. -/
def check (ws : Workspace) (singular plural : String) (isPerson hasEntities : Bool) :
    Outcome Unit := do
  roles.forM fun role => Conjunction.checkPartFree ws.draft (singular ++ "-" ++ role)
  let all := "all-" ++ plural
  Name.checkPart all
  Conjunction.checkSemanticFree ws.draft all
  if hasEntities &&
      ws.draft.entityCategories.any fun c => c.name == singular && !c.pruned then
    throw (.duplicateEntityCategory singular)
  checkWordNames ws isPerson hasEntities
  Conjunction.checkFamilyNames ws (singular ++ "-rhs")

end Category

namespace Workspace

open Registration

/-- A category registered earlier, by its singular. -/
def category? (ws : Workspace) (singular : String) : Option Category :=
  ws.categories.lookup (Name.slug singular)

/-- The relative pronoun, registered on first use: "who" for persons and "that" for things. -/
def relativePronoun (isPerson : Bool) : Registration SymbolId := do
  let ws ← get
  if isPerson then
    if let some id := ws.who then return id
    let id ← addWord "who" ["who", "that"] [] (some Category.relativeInsertionCost)
    modify fun ws => { ws with who := some id }
    return id
  else
    if let some id := ws.that then return id
    let id ← addWord "that" ["that", "which"] [] (some Category.relativeInsertionCost)
    modify fun ws => { ws with that := some id }
    return id

/-- The possessive suffix, registered on first use. -/
def possessiveSuffixOnce : Registration SymbolId := do
  if let some id := (← get).possessiveSuffix then return id
  let id ← addWord "possessive-suffix" ["'s"] ["’s"] none
  modify fun ws => { ws with possessiveSuffix := some id }
  return id

/-- The placeholder of a category and its possessive. -/
def newEntities (singular : String) (entities : List String) :
    Registration (EntityCategoryId × SymbolId × SymbolId) := do
  let category ← call (·.newEntityCategory singular entities)
  let entity ← newSymbol [singular ++ "-entity"]
  addRule entity { rhs := .placeholder category }
  let suffix ← possessiveSuffixOnce
  let possessive ← newSymbol [singular ++ "-possessive"]
  addBinaryRule possessive (.binary entity suffix)
  return (category, entity, possessive)

/-- Registers a category. -/
def newCategory (spec : CategoryWords) : Registration Category := do
  let singular := Name.slug spec.singular
  let plural := Name.slug spec.plural
  let hasEntities := !spec.entities.isEmpty
  Change.ofOutcome (Category.check (← get) singular plural spec.isPerson hasEntities)
  let role (name : String) : Registration SymbolId := newSymbol [singular ++ "-" ++ name]
  let accepted := spec.plural :: if spec.isPerson then ["people"] else []
  let substituted := spec.singular :: if spec.isPerson then ["person"] else []
  let term ← addWord (singular ++ "-term") accepted substituted none
  let adjective ← role "adjective"
  let head ← role "head"
  let subjFilter ← role "subj-filter"
  let objFilter ← role "obj-filter"
  let passive ← role "passive"
  let rhs ← role "rhs"
  let pluralSymbol ← role "plural"
  let all ← call (·.newSemantic (.argument ("all-" ++ plural)))
  addRule head (.unary term)
  addBinaryRule head (.binary adjective term)
  let relative ← relativePronoun spec.isPerson
  addBinaryRule rhs (.binary relative subjFilter)
  addRule rhs (.unary objFilter)
  addBinaryRule rhs ((Proposal.binary relative objFilter).closing [0])
  addRule rhs (.unary passive)
  let rhsPlus ← conjunction rhs
  let allForest ← ask (·.vocabulary.leaf all)
  addRule pluralSymbol ((Proposal.unary head).fixed allForest)
  addBinaryRule pluralSymbol (.binary head rhsPlus)
  let entities ← if hasEntities then some <$> newEntities singular spec.entities else pure none
  let category : Category :=
    { term, adjective, head, subjFilter, objFilter, passive, rhs, rhsPlus
      plural := pluralSymbol
      all
      entityCategory := entities.map (·.1)
      entity := entities.map (·.2.1)
      possessive := entities.map (·.2.2) }
  modify fun ws => { ws with categories := (singular, category) :: ws.categories }
  return category

/-- The category of this singular, registered on first use. -/
def category (spec : CategoryWords) : Registration Category := do
  match (← get).category? spec.singular with
  | some category => return category
  | none => newCategory spec

end Workspace

end QueryGrammar
