import QueryGrammar.Name
import QueryGrammar.Order.Keyed
import QueryGrammar.Semantic.Basic
/-!
The registered semantics and the ways to compose them. A call that composes checks the bounds on
the number of children, and keeps siblings sorted by their written form and free of repetition, so
the order of registration shows in no tree.
-/
namespace QueryGrammar

/-- The definitions in the order of registration; names are never used twice. -/
structure Vocabulary where
  definitions : List Semantic := []

namespace Vocabulary

def size (v : Vocabulary) : Nat := v.definitions.length

def find? (v : Vocabulary) (name : String) : Option SemanticId :=
  (v.definitions.findIdx? (·.name == name)).map SemanticId.mk

def get? (v : Vocabulary) (id : SemanticId) : Option Semantic :=
  v.definitions[id.index]?

def definition (v : Vocabulary) (id : SemanticId) : Outcome Semantic :=
  match v.get? id with
  | some d => .ok d
  | none => .error (.unknownSemantic s!"#{id.index}")

def name (v : Vocabulary) (id : SemanticId) : String :=
  match v.get? id with
  | some d => d.name
  | none => "<unknown>"

def ids (v : Vocabulary) : List SemanticId :=
  (List.range v.size).map SemanticId.mk

/-- A cost is a finite number that is not negative. -/
def isCost (cost : Float) : Bool :=
  cost.isFinite && 0 ≤ cost

/-- What a definition must satisfy whatever else is registered. -/
def boundsFlaw? (d : Semantic) : Option BoundsFlaw :=
  if d.isArg && d.maxParams != 0 then some .argumentWithParameters
  else if !d.isArg && d.maxParams == 0 then some .functionWithoutParameters
  else if d.maxParams < d.minParams then some .minimumAboveMaximum
  else none

/-- The vocabulary with one more definition, and its number. -/
def register (v : Vocabulary) (d : Semantic) : Outcome (SemanticId × Vocabulary) := do
  Name.checkPart d.name
  if (v.find? d.name).isSome then throw (.duplicateSemantic d.name)
  match boundsFlaw? d with
  | some flaw => throw (.invalidBounds d.name d.minParams d.maxParams flaw)
  | none =>
    unless isCost d.cost do throw (.invalidCost (.semantic d.name) d.cost)
    return (⟨v.size⟩, ⟨v.definitions ++ [d]⟩)

mutual

/-- A node as `f(a,g(b))`; an argument stands without parentheses. -/
def renderNode (v : Vocabulary) : Node → String
  | .mk s children =>
    if children.isEmpty && (v.get? s).any (·.isArg) then v.name s
    else v.name s ++ "(" ++ String.intercalate "," (renderNodes v children) ++ ")"

def renderNodes (v : Vocabulary) : List Node → List String
  | [] => []
  | n :: ns => renderNode v n :: renderNodes v ns

end

/-- Siblings with commas between them. -/
def render (v : Vocabulary) (forest : Forest) : String :=
  String.intercalate "," (v.renderNodes forest)

def renderAttachment (v : Vocabulary) : Attachment → String
  | .fixed forest => v.render forest
  | .deferred chain =>
    String.join (chain.map fun id => v.name id ++ "(") ++
      String.ofList (List.replicate chain.length ')')

/-- No semantic that forbids it heads two of the siblings; `seen` holds those met before. -/
def checkSoleHeads (v : Vocabulary) (seen : List SemanticId) : List Node → Outcome Unit
  | [] => .ok ()
  | n :: ns => do
    let d ← v.definition n.semantic
    if d.forbidsMultiple then
      if n.semantic ∈ seen then throw (.forbiddenMultiple d.name)
      else checkSoleHeads v (n.semantic :: seen) ns
    else checkSoleHeads v seen ns

/-- Siblings in the order of their written forms, each form once. -/
def canonical (v : Vocabulary) (nodes : List Node) : Outcome Forest := do
  let forest := Keyed.distinct v.renderNode nodes
  v.checkSoleHeads [] forest
  return forest

/-- The tree of one leaf: an argument, or a function that may stand alone. -/
def leaf (v : Vocabulary) (id : SemanticId) : Outcome Forest := do
  let d ← v.definition id
  if !d.isArg && 0 < d.minParams then
    throw (.argumentCount d.name d.minParams d.maxParams 0)
  return [.mk id []]

/-- A function applied to siblings. -/
def reduce (v : Vocabulary) (parent : SemanticId) (children : Forest) : Outcome Forest := do
  let d ← v.definition parent
  if d.isArg then throw (.argumentApplied d.name)
  v.checkSoleHeads [] children
  let count := children.length
  if count < d.minParams.toNat || d.maxParams.toNat < count then
    throw (.argumentCount d.name d.minParams d.maxParams count)
  return [.mk parent children]

/-- The union of two lists of siblings. -/
def merge (v : Vocabulary) (a b : Forest) : Outcome Forest :=
  v.canonical (a ++ b)

/-- Accepts a chain of functions, each but the innermost able to take a single child. -/
def defer (v : Vocabulary) (chain : List SemanticId) : Outcome Chain := do
  if chain.isEmpty then throw (.invalidAttachment .emptyChain)
  chain.forM fun id => do
    let d ← v.definition id
    if d.isArg then throw (.argumentApplied d.name)
  chain.dropLast.forM fun id => do
    let d ← v.definition id
    if 1 < d.minParams then throw (.argumentCount d.name d.minParams d.maxParams 1)
  return chain

/-- Applies the functions of a chain, the innermost first. -/
def applyChain (v : Vocabulary) : Chain → Forest → Outcome Forest
  | [], children => .ok children
  | id :: chain, children => do
    v.reduce id (← v.applyChain chain children)

mutual

/-- The cost of a node: its own and then those of its children, summed from negative zero. -/
def costOf (v : Vocabulary) : Node → Float
  | .mk s children =>
    (match v.get? s with
      | some d => d.cost
      | none => 0.0) + forestCost v (-0.0) children

def forestCost (v : Vocabulary) (sum : Float) : List Node → Float
  | [] => sum
  | n :: ns => forestCost v (sum + costOf v n) ns

end

/-- The costs of all nodes of a forest, summed from negative zero. -/
def cost (v : Vocabulary) (forest : Forest) : Float :=
  v.forestCost (-0.0) forest

end Vocabulary

end QueryGrammar
