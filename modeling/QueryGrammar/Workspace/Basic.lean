import QueryGrammar.Change
import QueryGrammar.Draft.Lexical
/-!
What content modules register into: a draft together with the words, families and categories that
several modules share and that are registered on first use.
-/
namespace QueryGrammar

/-- The words and semantics that join operands. -/
structure Connectives where
  and : SymbolId
  or : SymbolId
  comma : SymbolId
  intersect : SemanticId
  union : SemanticId

/-- A symbol that expands to a negation, and the symbol of the stop words before it. -/
structure NegationSet where
  symbol : SymbolId
  stopWord : SymbolId
  conflicting : Option SymbolId

/-- What is said about a countable kind of thing to register its category. -/
structure CategoryWords where
  singular : String
  plural : String
  isPerson : Bool := false
  entities : List String := []

/-- The symbols of a category. The last three exist where it has named instances. -/
structure Category where
  term : SymbolId
  adjective : SymbolId
  head : SymbolId
  subjFilter : SymbolId
  objFilter : SymbolId
  passive : SymbolId
  rhs : SymbolId
  rhsPlus : SymbolId
  plural : SymbolId
  all : SemanticId
  entityCategory : Option EntityCategoryId
  entity : Option SymbolId
  possessive : Option SymbolId

structure Workspace where
  draft : Draft := .empty
  connectives : Option Connectives := none
  /-- Each operand with the root of its family. -/
  families : List (SymbolId × SymbolId) := []
  notWord : Option SymbolId := none
  negations : List (Option SymbolId × NegationSet) := []
  who : Option SymbolId := none
  that : Option SymbolId := none
  possessiveSuffix : Option SymbolId := none
  /-- The categories by the name part of their singular. -/
  categories : List (String × Category) := []

abbrev Registration (α : Type) := Change Workspace α

namespace Registration

/-- A call on the draft that answers. -/
def call {α : Type} (f : Draft → Outcome (α × Draft)) : Registration α :=
  (Change.call f).within Workspace.draft fun ws d => { ws with draft := d }

/-- A call on the draft that only changes it. -/
def update (f : Draft → Outcome Draft) : Registration Unit :=
  call fun d => return ((), ← f d)

/-- A question to the draft. -/
def ask {α : Type} (f : Draft → Outcome α) : Registration α := do
  Change.ofOutcome (f (← get).draft)

def newSymbol (parts : List String) : Registration SymbolId :=
  call (·.newSymbol parts)

def addRule (id : SymbolId) (p : Proposal) : Registration Unit :=
  update (·.addRule id p)

def addBinaryRule (id : SymbolId) (p : Proposal) : Registration Unit :=
  update (·.addBinaryRule id p)

def addWord (name : String) (accepted substituted : List String)
    (insertionCost : Option Float) : Registration SymbolId :=
  call (·.addWord name accepted substituted insertionCost)

def defer (chain : List SemanticId) : Registration Chain :=
  ask (·.vocabulary.defer chain)

/-- A semantic by name, registered on first use. A later request must repeat its definition. -/
def semantic (definition : Semantic) : Registration SemanticId := do
  let vocabulary := (← get).draft.vocabulary
  match vocabulary.find? definition.name with
  | some id =>
    if vocabulary.get? id == some definition then return id
    else throw (.duplicateSemantic definition.name)
  | none => call (·.newSemantic definition)

end Registration

end QueryGrammar
