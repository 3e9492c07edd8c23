/-!
Semantics: the named primitives a query is composed of, and the trees they form. Functions take
children, arguments stand for a literal value and take none.
-/
namespace QueryGrammar

/-- The number of a semantic in the order of registration. -/
structure SemanticId where
  index : Nat
  deriving DecidableEq

/-- The definition of a primitive. The cost is a weight for ranking; nothing here enforces it. -/
structure Semantic where
  name : String
  minParams : UInt64
  maxParams : UInt64
  cost : Float
  isArg : Bool
  forbidsMultiple : Bool
  deriving BEq

namespace Semantic

def function (name : String) (minParams maxParams : UInt64) : Semantic :=
  ⟨name, minParams, maxParams, 0.0, false, false⟩

def argument (name : String) : Semantic :=
  ⟨name, 0, 0, 0.0, true, false⟩

end Semantic

/-- A primitive applied to its children. -/
inductive Node where
  | mk (semantic : SemanticId) (children : List Node)

/-- Siblings. Composition keeps them in the order of their written forms, without repetition. -/
abbrev Forest := List Node

namespace Node

def semantic : Node → SemanticId
  | mk s _ => s

def children : Node → Forest
  | mk _ cs => cs

mutual

def decEq : (a b : Node) → Decidable (a = b)
  | mk s cs, mk t ds =>
    if hs : s = t then
      match decEqForest cs ds with
      | isTrue hc => isTrue (by rw [hs, hc])
      | isFalse hc => isFalse fun h => hc (Node.mk.inj h).2
    else isFalse fun h => hs (Node.mk.inj h).1

def decEqForest : (a b : List Node) → Decidable (a = b)
  | [], [] => isTrue rfl
  | [], _ :: _ => isFalse nofun
  | _ :: _, [] => isFalse nofun
  | x :: xs, y :: ys =>
    match decEq x y, decEqForest xs ys with
    | isTrue hx, isTrue hxs => isTrue (by rw [hx, hxs])
    | isFalse hx, _ => isFalse fun h => hx (List.cons.inj h).1
    | _, isFalse hxs => isFalse fun h => hxs (List.cons.inj h).2

end

instance : DecidableEq Node := decEq

mutual

/-- The semantics in a tree, from the root on. -/
def ids : Node → List SemanticId
  | mk s cs => s :: forestIds cs

def forestIds : List Node → List SemanticId
  | [] => []
  | n :: ns => ids n ++ forestIds ns

end

mutual

/-- How many nodes the longest path from the root has. -/
def height : Node → Nat
  | mk _ cs => forestHeight cs + 1

def forestHeight : List Node → Nat
  | [] => 0
  | n :: ns => max (height n) (forestHeight ns)

end

end Node

/-- Functions applied once the parts of a rule have their semantics, outermost first. -/
abbrev Chain := List SemanticId

/-- What a rule contributes to the semantics of its phrase: a fixed forest, merged with that of the
right-hand side, or functions applied to it. -/
inductive Attachment where
  | fixed (forest : Forest)
  | deferred (chain : Chain)
  deriving DecidableEq

namespace Attachment

def ids : Attachment → List SemanticId
  | fixed forest => Node.forestIds forest
  | deferred chain => chain

end Attachment

end QueryGrammar
