import QueryGrammar.Draft.Basic
import QueryGrammar.Text.Quoted
/-!
Rules of one symbol that share their right-hand side, which most often means that an insertion
repeats an existing expansion. Deeper ambiguity is left to the parser.
-/
namespace QueryGrammar

structure Ambiguity where
  symbol : String
  rhs : List String
  rules : Nat
  deriving DecidableEq

/-- By symbol, and below one symbol by right-hand side. -/
def Ambiguity.isUpTo (a b : Ambiguity) : Bool :=
  a.symbol < b.symbol || (a.symbol == b.symbol && !(b.rhs < a.rhs))

namespace Draft

/-- A right-hand side by name; a terminal stands in quotes. -/
def rhsNames (d : Draft) : Expansion → List String
  | .terminal term _ => [Text.quoted term]
  | .placeholder category => [d.entityCategoryName category]
  | expansion => expansion.parts.map d.symbolName

/-- The right-hand sides that several rules of a symbol share. -/
def ambiguitiesOf (d : Draft) (id : SymbolId) : List Ambiguity :=
  let counts := Keyed.ofList (· + ·) ((d.rules id).map fun r => (d.rhsNames r.expansion, 1))
  (counts.filter fun (_, n) => 1 < n).map fun (rhs, n) => ⟨d.symbolName id, rhs, n⟩

/-- All shared right-hand sides in ascending order of symbol and right-hand side. -/
def ambiguities (d : Draft) : List Ambiguity :=
  (d.liveSymbols.flatMap d.ambiguitiesOf).mergeSort Ambiguity.isUpTo

end Draft

end QueryGrammar
