import QueryGrammar.Draft.Registration
/-!
Removing what no sentence uses. Symbols without a complete expansion go silently, with every rule
that mentions them: content modules leave attachment points empty on purpose. What could expand
but is not reached from the start symbol is reported.
-/
namespace QueryGrammar

/-- What becomes of components that are not reached: they fail the build, or are removed. -/
inductive UnusedPolicy where
  | deny
  | warn
  deriving DecidableEq

namespace Draft

/-- Whether all parts of a rule are among the given symbols. -/
def usesOnly (known : List SymbolId) (rule : Rule) : Bool :=
  rule.expansion.parts.all known.contains

/-- Takes up a symbol once one of its rules uses only symbols known to be productive. -/
def takeProductive (d : Draft) (known : List SymbolId) (id : SymbolId) : List SymbolId :=
  if known.contains id then known
  else if (d.rules id).any (usesOnly known) then known ++ [id]
  else known

/-- Goes through the symbols until a round adds none; each round before adds one at least. -/
def productiveRounds (d : Draft) : Nat → List SymbolId → List SymbolId
  | 0, known => known
  | rounds + 1, known =>
    let next := d.liveSymbols.foldl d.takeProductive known
    if next.length = known.length then known else productiveRounds d rounds next

/-- The live symbols that have a complete expansion. -/
def productive (d : Draft) : List SymbolId :=
  d.productiveRounds d.liveSymbols.length []

/-- The symbols reached from the start through rules over productive symbols. -/
def reachable (d : Draft) (productive : List SymbolId) : List SymbolId :=
  d.reachedFrom (usesOnly productive) [start]

/-- The rules over productive symbols that the given symbols have. -/
def usedRules (d : Draft) (productive reached : List SymbolId) : List Rule :=
  reached.flatMap fun id => (d.rules id).filter (usesOnly productive)

def placeholderOf? (rule : Rule) : Option EntityCategoryId :=
  match rule.expansion with
  | .placeholder category => some category
  | _ => none

/-- Components that could be used but are not. -/
structure Unused where
  symbols : List SymbolId
  semantics : List SemanticId
  categories : List EntityCategoryId

def unused (d : Draft) (productive reached : List SymbolId) : Unused :=
  let rules := d.usedRules productive reached
  let semantics := rules.flatMap fun r => (r.semantic.map Attachment.ids).getD []
  let categories := rules.filterMap placeholderOf?
  { symbols := d.liveSymbols.filter fun id => productive.contains id && !reached.contains id
    semantics := d.liveSemantics.filter fun id => !semantics.contains id
    categories := d.liveEntityCategories.filter fun id => !categories.contains id }

/-- The names of unused components in ascending order. -/
def unusedNames (d : Draft) (u : Unused) : List String :=
  Keyed.distinct id
    (u.symbols.map d.symbolName ++ u.semantics.map d.vocabulary.name ++
      u.categories.map d.entityCategoryName)

/-- What remains of a symbol. -/
def trimSymbol (productive reached : List SymbolId) (s : Symbol) (id : SymbolId) : Symbol :=
  if s.pruned then s
  else if productive.contains id && reached.contains id then
    { s with rules := s.rules.filter (usesOnly productive) }
  else { s with rules := [], pruned := true }

/-- Removes what is unproductive or unused, and returns the names of the unused. -/
def removeUnused (d : Draft) (policy : UnusedPolicy) : Outcome (List String × Draft) := do
  let productive := d.productive
  unless productive.contains start do throw (.emptyGrammar (d.symbolName start))
  let reached := d.reachable productive
  let u := d.unused productive reached
  let names := d.unusedNames u
  if !names.isEmpty && policy = .deny then throw (.unusedComponents names)
  let trimmed :=
    { d with symbols := d.symbols.zipIdx.map fun (s, i) => trimSymbol productive reached s ⟨i⟩ }
  let trimmed := u.semantics.foldl dropSemantic trimmed
  return (names, u.categories.foldl dropEntityCategory trimmed)

end Draft

end QueryGrammar
