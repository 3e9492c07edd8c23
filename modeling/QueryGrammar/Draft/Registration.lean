import QueryGrammar.Draft.Basic
/-!
Registering symbols, rules, semantics and entity categories. Each call checks first and returns the
enlarged draft only if it accepts, so a refused call changes nothing.
-/
namespace QueryGrammar.Draft

/-- Refuses a name that a live symbol has. Calls that register several symbols check all their names
before the first. -/
def checkFree (d : Draft) (name : String) : Outcome Unit :=
  if (d.find? name).isSome then .error (.duplicateSymbol name) else .ok ()

/-- Registers the symbol `[part-part...]`. -/
def newSymbolOf (d : Draft) (isTermSequence : Bool) (parts : List String) :
    Outcome (SymbolId × Draft) := do
  let name ← Name.symbol parts
  if d.isTaken name then throw (.duplicateSymbol name)
  return d.appendSymbol { name := name, isTermSequence := isTermSequence }

def newSymbol (d : Draft) (parts : List String) : Outcome (SymbolId × Draft) :=
  d.newSymbolOf false parts

/-! ### Rules -/

/-- Only a rule over two symbols has parts to exchange, and only one over symbols has positions. -/
def checkExtras (owner : String) (p : Proposal) : Outcome Unit := do
  if p.transpositionCost.isSome then throw (.transpositionOnNonBinary owner)
  match p.noInsertion with
  | index :: _ => throw (.noInsertionIndex owner index 0)
  | [] => return

def checkRuleCost (owner : String) (cost : Float) : Outcome Unit :=
  if Vocabulary.isCost cost then .ok () else .error (.invalidCost (.rule owner) cost)

/-- The expansion into one or two live symbols. -/
def symbolExpansion (d : Draft) (owner : String) (p : Proposal) (ids : List SymbolId) :
    Outcome Expansion := do
  ids.forM fun id => discard (d.live id)
  if ids.isEmpty || 2 < ids.length then throw (.rhsLength owner ids.length .oneOrTwo)
  p.noInsertion.forM fun index => do
    if ids.length ≤ index then throw (.noInsertionIndex owner index ids.length)
  match ids with
  | [first, second] =>
    p.transpositionCost.forM (checkRuleCost owner)
    return .binary first second p.transpositionCost
      ⟨p.noInsertion.contains 0, p.noInsertion.contains 1⟩
  | first :: _ =>
    if p.transpositionCost.isSome then throw (.transpositionOnNonBinary owner)
    return .unary first (!p.noInsertion.isEmpty)
  | [] => throw (.rhsLength owner 0 .oneOrTwo)

/-- Refuses a part of a lexical sequence that is not a live term sequence. -/
def checkTermSequence (d : Draft) (owner : String) (id : SymbolId) : Outcome Unit := do
  let target ← d.live id
  unless target.isTermSequence do throw (.notATermSequence owner target.name)

/-- The expansion that reads one or two term sequences as a unit. -/
def sequenceExpansion (d : Draft) (owner : String) (ids : List SymbolId) (text : DisplayText) :
    Outcome Expansion := do
  if ids.isEmpty || 2 < ids.length then throw (.rhsLength owner ids.length .oneOrTwo)
  ids.forM (d.checkTermSequence owner)
  match ids with
  | first :: rest => return .sequence first rest.head? text
  | [] => throw (.rhsLength owner 0 .oneOrTwo)

/-- The checked expansion of a proposal for a symbol named `owner`. -/
def expansionOf (d : Draft) (owner : String) (p : Proposal) : Outcome Expansion :=
  match p.rhs with
  | .symbols ids => d.symbolExpansion owner p ids
  | .named names => do
    let ids ← names.mapM d.symbol
    d.symbolExpansion owner p ids
  | .terminal term text => do
    checkExtras owner p
    return .terminal (← Name.checkedTerm term) text
  | .sequence ids text => do
    checkExtras owner p
    d.sequenceExpansion owner ids text
  | .placeholder category => do
    checkExtras owner p
    if (d.entityCategory? category).isNone then
      throw (.unknownEntityCategory s!"#{category.index}")
    return .placeholder category

/-- Refuses semantics that are not registered; of several the one with the least number is
reported. -/
def checkSemantics (d : Draft) (ids : List SemanticId) : Outcome Unit :=
  (Keyed.distinct SemanticId.index ids).forM fun id => discard (d.vocabulary.definition id)

/-- Refuses an insertion cost that is no cost or stands on a rule that is not lexical. -/
def checkInsertionCost (owner : String) (expansion : Expansion) (cost : Float) :
    Outcome Unit := do
  checkRuleCost owner cost
  unless expansion.isLexical do throw (.insertionOnNonLexical owner)

/-- Refuses an attachment that can never be satisfied. -/
def checkAttachment (d : Draft) (owner : String) (expansion : Expansion)
    (attachment : Attachment) : Outcome Unit := do
  d.checkSemantics attachment.ids
  match attachment, expansion with
  | .deferred _, .terminal _ _ => throw (.invalidAttachment (.deferredOnTerminal owner))
  | _, _ => return

/-- The rule that a proposal for the symbol `id` describes. -/
def ruleOf (d : Draft) (id : SymbolId) (p : Proposal) : Outcome Rule := do
  let owner ← d.live id
  let expansion ← d.expansionOf owner.name p
  if owner.isTermSequence && !expansion.isLexical then throw (.nonLexicalRule owner.name)
  p.insertionCost.forM (checkInsertionCost owner.name expansion)
  p.semantic.forM (d.checkAttachment owner.name expansion)
  return {
    expansion := expansion
    semantic := p.semantic
    features := p.features
    insertionCost := p.insertionCost }

/-- Adds a rule to a symbol. A rule that the symbol has already is accepted and not repeated. -/
def addRule (d : Draft) (id : SymbolId) (p : Proposal) : Outcome Draft := do
  let rule ← d.ruleOf id p
  return d.appendRule id rule

/-- Adds a rule over exactly two symbols. -/
def addBinaryRule (d : Draft) (id : SymbolId) (p : Proposal) : Outcome Draft :=
  let length := match p.rhs with
    | .symbols ids => ids.length
    | .named names => names.length
    | _ => 0
  if length = 2 then d.addRule id p
  else .error (.rhsLength (d.symbolName id) length .exactlyTwo)

/-! ### Semantics and entity categories -/

def newSemantic (d : Draft) (definition : Semantic) : Outcome (SemanticId × Draft) := do
  let (id, vocabulary) ← d.vocabulary.register definition
  return (id, { d with vocabulary := vocabulary })

/-- Registers the category of placeholders `name` in braces, with its instances in lower case and
in ascending order. -/
def newEntityCategory (d : Draft) (name : String) (instances : List String) :
    Outcome (EntityCategoryId × Draft) := do
  Name.checkPart name
  if d.entityCategories.any (·.name == name) then throw (.duplicateEntityCategory name)
  let kept := (instances.map Name.normalizeTerm).filter fun term => !term.isEmpty
  let category : EntityCategory := { name := name, instances := Keyed.distinct id kept }
  return (⟨d.entityCategories.length⟩,
    { d with entityCategories := d.entityCategories ++ [category] })

end QueryGrammar.Draft
