import QueryGrammar.Rule.Basic
import QueryGrammar.Semantic.Vocabulary
/-!
A grammar under construction: its symbols with their rules, its semantics and its entity
categories, each numbered in the order of registration. What has been pruned keeps its number and
its name, but counts as absent.
-/
namespace QueryGrammar

structure Symbol where
  name : String
  rules : List Rule := []
  isTermSequence : Bool := false
  pruned : Bool := false

/-- A source of placeholders with the names it may stand for. -/
structure EntityCategory where
  name : String
  instances : List String
  pruned : Bool := false

structure Draft where
  symbols : List Symbol
  vocabulary : Vocabulary := {}
  prunedSemantics : List SemanticId := []
  entityCategories : List EntityCategory := []
  /-- Symbols of stop words that are filled when the grammar is finished, each with the symbol
  whose terms it must avoid. -/
  pendingStopWords : List (SymbolId × Option SymbolId) := []

namespace Draft

def startName : String := "[start]"

/-- A draft that holds the start symbol and nothing else. -/
def empty : Draft := { symbols := [{ name := startName }] }

def start : SymbolId := ⟨0⟩

/-! ### Symbols -/

def get? (d : Draft) (id : SymbolId) : Option Symbol :=
  d.symbols[id.index]?.filter (!·.pruned)

/-- The symbol with this number, if it is live. -/
def live (d : Draft) (id : SymbolId) : Outcome Symbol :=
  match d.get? id with
  | some s => .ok s
  | none => .error (.unknownSymbol s!"#{id.index}")

def find? (d : Draft) (name : String) : Option SymbolId :=
  (d.symbols.findIdx? fun s => s.name == name && !s.pruned).map SymbolId.mk

/-- The number of the live symbol with this name. -/
def symbol (d : Draft) (name : String) : Outcome SymbolId :=
  match d.find? name with
  | some id => .ok id
  | none => .error (.unknownSymbol name)

/-- Whether a symbol of this name exists or has been pruned. -/
def isTaken (d : Draft) (name : String) : Bool :=
  d.symbols.any (·.name == name)

def symbolName (d : Draft) (id : SymbolId) : String :=
  match d.symbols[id.index]? with
  | some s => s.name
  | none => "<unknown>"

/-- The rules of a symbol; one that is pruned or unknown has none. -/
def rules (d : Draft) (id : SymbolId) : List Rule :=
  match d.get? id with
  | some s => s.rules
  | none => []

def liveSymbols (d : Draft) : List SymbolId :=
  d.symbols.zipIdx.filterMap fun (s, i) => if s.pruned then none else some ⟨i⟩

/-- How many rules the live symbols have together. -/
def ruleCount (d : Draft) : Nat :=
  (d.liveSymbols.flatMap d.rules).length

def modifySymbol (d : Draft) (id : SymbolId) (f : Symbol → Symbol) : Draft :=
  { d with symbols := d.symbols.modify id.index f }

/-- Adds a symbol; its number is the count of those before it. -/
def appendSymbol (d : Draft) (s : Symbol) : SymbolId × Draft :=
  (⟨d.symbols.length⟩, { d with symbols := d.symbols ++ [s] })

/-- Whether the symbol would gain a rule it does not have yet. -/
def lacks (d : Draft) (id : SymbolId) (rule : Rule) : Bool :=
  !(d.rules id).contains rule

/-- Appends a rule unless the symbol has it already. -/
def appendRule (d : Draft) (id : SymbolId) (rule : Rule) : Draft :=
  if d.lacks id rule then d.modifySymbol id fun s => { s with rules := s.rules ++ [rule] }
  else d

def dropSymbol (d : Draft) (id : SymbolId) : Draft :=
  d.modifySymbol id fun s => { s with rules := [], pruned := true }

/-! ### Semantics -/

def liveSemantics (d : Draft) : List SemanticId :=
  d.vocabulary.ids.filter fun id => !d.prunedSemantics.contains id

def dropSemantic (d : Draft) (id : SemanticId) : Draft :=
  { d with prunedSemantics := d.prunedSemantics ++ [id] }

/-! ### Entity categories -/

def entityCategory? (d : Draft) (id : EntityCategoryId) : Option EntityCategory :=
  d.entityCategories[id.index]?.filter (!·.pruned)

def entityCategoryName (d : Draft) (id : EntityCategoryId) : String :=
  match d.entityCategories[id.index]? with
  | some c => Name.entityCategory c.name
  | none => Name.entityCategory "unknown"

def liveEntityCategories (d : Draft) : List EntityCategoryId :=
  d.entityCategories.zipIdx.filterMap fun (c, i) => if c.pruned then none else some ⟨i⟩

def dropEntityCategory (d : Draft) (id : EntityCategoryId) : Draft :=
  { d with
    entityCategories := d.entityCategories.modify id.index fun c => { c with pruned := true } }

/-! ### Following references -/

/-- All symbols that can be reached from `frontier` by steps of `next`. A round that finds nothing
new ends the search; each other round finds a symbol, so their number bounds the rounds. -/
def closure (next : SymbolId → List SymbolId) :
    Nat → List SymbolId → List SymbolId → List SymbolId
  | 0, _, seen => seen
  | rounds + 1, frontier, seen =>
    let fresh := (frontier.filter fun id => !seen.contains id).eraseDups
    if fresh.isEmpty then seen
    else closure next rounds (fresh.flatMap next) (seen ++ fresh)

/-- The symbols reached from `roots` through the rules that satisfy `use`. -/
def reachedFrom (d : Draft) (use : Rule → Bool) (roots : List SymbolId) : List SymbolId :=
  closure (fun id => ((d.rules id).filter use).flatMap (·.expansion.parts))
    (d.symbols.length + roots.length + 1) roots []

end Draft

end QueryGrammar
