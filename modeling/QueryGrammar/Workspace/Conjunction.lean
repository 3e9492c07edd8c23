import QueryGrammar.Workspace.Basic
/-!
Families of conjunctions. For an operand `x` they read `x`, `x and x`, `x, x and x` and
or-groups of and-groups:

    [x+]      -> x | [x-and] | [x-or]
    [x-and]   -> x [and+x]                      intersect(..), deferred
    [and+x]   -> [and] x | [and] [x-and] | [comma] [x-and]
    [x-and?]  -> x | [x-and]
    [x-or]    -> [x-and?] [or+x]                union(..), deferred
    [or+x]    -> [or] [x-and?] | [or] [x-or] | [comma] [x-or]

An and-group never holds an or-group, so "and" binds tighter. No operand is ever suggested, the
connectives are.
-/
namespace QueryGrammar

namespace Conjunction

def intersectName : String := "intersect"

def unionName : String := "union"

/-- The cost of suggesting an omitted "and". -/
def andInsertionCost : Float := 2.0

def maxOperands : UInt64 := 100

/-- The name parts of a family. -/
structure FamilyNames where
  root : String
  andGroup : String
  andTail : String
  andOption : String
  orGroup : String
  orTail : String

def familyNames (stem : String) : FamilyNames where
  root := stem ++ "+"
  andGroup := stem ++ "-and"
  andTail := "and+" ++ stem
  andOption := stem ++ "-and?"
  orGroup := stem ++ "-or"
  orTail := "or+" ++ stem

def FamilyNames.toList (n : FamilyNames) : List String :=
  [n.root, n.andGroup, n.andTail, n.andOption, n.orGroup, n.orTail]

/-- Refuses a name part that is malformed or names a live symbol. -/
def checkPartFree (d : Draft) (part : String) : Outcome Unit := do
  d.checkFree (← Name.symbol [part])

/-- Refuses semantics that are registered. -/
def checkSemanticFree (d : Draft) (name : String) : Outcome Unit :=
  if (d.vocabulary.find? name).isSome then .error (.duplicateSemantic name) else .ok ()

/-- Until the connectives exist, their names must be free. -/
def checkConnectiveNames (ws : Workspace) : Outcome Unit := do
  if ws.connectives.isSome then return
  ["[and]", "[or]", "[comma]"].forM ws.draft.checkFree
  [intersectName, unionName].forM (checkSemanticFree ws.draft)

/-- Whether a family for an operand of this stem could be registered. -/
def checkFamilyNames (ws : Workspace) (stem : String) : Outcome Unit := do
  (familyNames stem).toList.forM (checkPartFree ws.draft)
  checkConnectiveNames ws

end Conjunction

namespace Workspace

open Registration Conjunction

/-- The root of the family of an operand, once it is registered. -/
def conjunctionRoot? (ws : Workspace) (operand : SymbolId) : Option SymbolId :=
  ws.families.lookup operand

/-- The connectives, registered on first use. -/
def connectivesOnce : Registration Connectives := do
  if let some c := (← get).connectives then return c
  Change.ofOutcome (checkConnectiveNames (← get))
  let and ← addWord "and" ["and"] ["&"] (some andInsertionCost)
  let or ← addWord "or" ["or"] [] none
  let comma ← addWord "comma" [","] [] none
  let intersect ← call (·.newSemantic (.function intersectName 1 maxOperands))
  let union ← call (·.newSemantic (.function unionName 1 maxOperands))
  let c : Connectives :=
    { and := and, or := or, comma := comma, intersect := intersect, union := union }
  modify fun ws => { ws with connectives := some c }
  return c

/-- The root of the family of an operand, which is registered on first use. All six symbols are
tried before the first refusal among them counts. -/
def conjunction (operand : SymbolId) : Registration SymbolId := do
  if let some root := (← get).conjunctionRoot? operand then return root
  let stem := Name.stem (← ask (·.live operand)).name
  Change.ofOutcome (checkFamilyNames (← get) stem)
  let names := familyNames stem
  let c ← connectivesOnce
  let root ← (newSymbol [names.root]).observe
  let andGroup ← (newSymbol [names.andGroup]).observe
  let andTail ← (newSymbol [names.andTail]).observe
  let andOption ← (newSymbol [names.andOption]).observe
  let orGroup ← (newSymbol [names.orGroup]).observe
  let orTail ← (newSymbol [names.orTail]).observe
  let root ← Change.ofOutcome root
  let andGroup ← Change.ofOutcome andGroup
  let andTail ← Change.ofOutcome andTail
  let andOption ← Change.ofOutcome andOption
  let orGroup ← Change.ofOutcome orGroup
  let orTail ← Change.ofOutcome orTail
  let intersect ← defer [c.intersect]
  let union ← defer [c.union]
  addRule root (.unary operand)
  addRule root (.unary andGroup)
  addRule root (.unary orGroup)
  addBinaryRule andGroup (((Proposal.binary operand andTail).deferred intersect).closing [0])
  addBinaryRule andTail ((Proposal.binary c.and operand).closing [1])
  addBinaryRule andTail ((Proposal.binary c.and andGroup).closing [1])
  addBinaryRule andTail ((Proposal.binary c.comma andGroup).closing [1])
  addRule andOption (.unary operand)
  addRule andOption (.unary andGroup)
  addBinaryRule orGroup (((Proposal.binary andOption orTail).deferred union).closing [0])
  addBinaryRule orTail ((Proposal.binary c.or andOption).closing [1])
  addBinaryRule orTail ((Proposal.binary c.or orGroup).closing [1])
  addBinaryRule orTail ((Proposal.binary c.comma orGroup).closing [1])
  modify fun ws => { ws with families := ws.families ++ [(operand, root)] }
  return root

end Workspace

end QueryGrammar
