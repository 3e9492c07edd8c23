import QueryGrammar.Order.SortedMap
import QueryGrammar.Rule.Basic
/-!
The finished grammar as it is handed to a parser. Everything is named rather than numbered, and
kept in ascending order of names, so a document shows what was registered and not in which order.
-/
namespace QueryGrammar

/-- A node of a semantic tree by name. -/
inductive NamedNode where
  | mk (semantic : String) (children : List NamedNode)

namespace NamedNode

mutual

def decEq : (a b : NamedNode) → Decidable (a = b)
  | mk s cs, mk t ds =>
    if hs : s = t then
      match decEqList cs ds with
      | isTrue hc => isTrue (by rw [hs, hc])
      | isFalse hc => isFalse fun h => hc (NamedNode.mk.inj h).2
    else isFalse fun h => hs (NamedNode.mk.inj h).1

def decEqList : (a b : List NamedNode) → Decidable (a = b)
  | [], [] => isTrue rfl
  | [], _ :: _ => isFalse nofun
  | _ :: _, [] => isFalse nofun
  | x :: xs, y :: ys =>
    match decEq x y, decEqList xs ys with
    | isTrue hx, isTrue hxs => isTrue (by rw [hx, hxs])
    | isFalse hx, _ => isFalse fun h => hx (List.cons.inj h).1
    | _, isFalse hxs => isFalse fun h => hxs (List.cons.inj h).2

end

instance : DecidableEq NamedNode := decEq

end NamedNode

/-- The definition of a semantic, whose name is its key. -/
structure SemanticTraits where
  minParams : UInt64
  maxParams : UInt64
  cost : Float
  isArg : Bool
  forbidsMultiple : Bool
  deriving BEq

inductive NamedRhs where
  | symbols (names : List String)
  | terminal (term : String)
  | termSequence (names : List String)
  | placeholder (category : String)
  deriving DecidableEq

/-- What a rule attaches; the functions of a deferred one stand outermost first. -/
inductive NamedAttachment where
  | fixed (nodes : List NamedNode)
  | deferred (functions : List String)
  deriving DecidableEq

structure NamedInsertion where
  cost : Float
  position : Side
  text : List Segment := []
  semantic : Option (List NamedNode) := none
  tree : Option Provenance := none
  deriving BEq

inductive NamedEdit where
  | insertion (i : NamedInsertion)
  | transposition (cost : Float)
  deriving BEq

/-- A rule of a document. Where the text of a lexical rule is absent it shows the matched input. -/
structure NamedRule where
  rhs : NamedRhs
  text : Option DisplayText := none
  semantic : Option NamedAttachment := none
  features : Features := {}
  insertionCost : Option Float := none
  transpositionCost : Option Float := none
  noInsertionIndexes : List UInt64 := []
  edit : Option NamedEdit := none
  deriving BEq

namespace NamedRule

/-- What taking the rule costs a parser: the cost of its edit, if it is one. -/
def costToTake (rule : NamedRule) : Float :=
  match rule.edit with
  | some (.insertion insertion) => insertion.cost
  | some (.transposition cost) => cost
  | none => 0.0

end NamedRule

structure Document where
  schema : UInt32
  grammarKind : String
  startSymbol : String
  digest : String
  ruleSets : SortedMap (List NamedRule)
  semantics : SortedMap SemanticTraits
  entityCategories : SortedMap (List String)
  deriving BEq

namespace Document

def currentSchema : UInt32 := 1

def currentKind : String := "lexgram.grammar.v1"

/-- The rules of all symbols. -/
def rules (g : Document) : List NamedRule := g.ruleSets.values.flatten

def ruleCount (g : Document) : Nat :=
  g.rules.length

/-- How many rules are edits of others. -/
def editRuleCount (g : Document) : Nat :=
  g.rules.countP (·.edit.isSome)

/-- Whether a name stands for an argument in the document. -/
def isArg (g : Document) (semantic : String) : Bool :=
  (g.semantics.find? semantic).any (·.isArg)

mutual

/-- A node as `f(a,g(b))`; an argument stands without parentheses. -/
def renderNode (g : Document) : NamedNode → String
  | .mk s children =>
    if children.isEmpty && g.isArg s then s
    else s ++ "(" ++ String.intercalate "," (renderNodes g children) ++ ")"

def renderNodes (g : Document) : List NamedNode → List String
  | [] => []
  | n :: ns => renderNode g n :: renderNodes g ns

end

/-- Sibling nodes with commas between them. -/
def render (g : Document) (nodes : List NamedNode) : String :=
  String.intercalate "," (g.renderNodes nodes)

end Document

end QueryGrammar
