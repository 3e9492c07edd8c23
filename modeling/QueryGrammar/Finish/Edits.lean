import QueryGrammar.Finish.Insertion
/-!
Rules for input with a part left out or two parts exchanged. A binary rule whose one part can be
supplied also reads the other part alone, and one with a transposition cost also reads its parts in
the other order.
-/
namespace QueryGrammar

structure EditCounts where
  insertable : Nat := 0
  insertions : Nat := 0
  transpositions : Nat := 0
  deriving DecidableEq

namespace Draft

/-- The rule that reads `kept` alone, the other part being supplied. -/
def insertionRule (rule : Rule) (kept : SymbolId) (position : Side) (c : Candidate)
    (includeTrees : Bool) : Rule where
  expansion := .unary kept false
  semantic := rule.semantic
  features := rule.features
  edit := some (.insertion
    { cost := c.cost
      position := position
      text := c.text
      semantic := c.semantic
      tree := if includeTrees then some c.tree else none })

/-- The insertion that supplies `omitted` beside `kept`, unless it would read a symbol as itself. -/
def insertionOf? (best : Candidates) (includeTrees : Bool) (id : SymbolId) (rule : Rule)
    (excluded : Bool) (omitted kept : SymbolId) (position : Side) : Option Rule :=
  if excluded || kept = id then none
  else (best.lookup omitted).map fun c => insertionRule rule kept position c includeTrees

/-- The insertions that a rule of a symbol gives rise to. -/
def insertionsOf (best : Candidates) (includeTrees : Bool) (id : SymbolId) (rule : Rule) :
    List Rule :=
  match rule.expansion with
  | .binary first second _ excluded =>
    (insertionOf? best includeTrees id rule excluded.first first second .before).toList ++
      (insertionOf? best includeTrees id rule excluded.second second first .after).toList
  | _ => []

/-- The transposition that a rule gives rise to. -/
def transpositionOf? (rule : Rule) : Option Rule :=
  match rule.expansion with
  | .binary first second (some cost) excluded =>
    some
      { expansion := .binary second first none excluded.swap
        semantic := rule.semantic
        features := rule.features
        edit := some (.transposition cost) }
  | _ => none

/-- Adds rules to a symbol and returns how many it did not have. -/
def pushAll (id : SymbolId) : List Rule → Draft → Nat × Draft
  | [], d => (0, d)
  | rule :: rules, d =>
    let (count, next) := pushAll id rules (d.appendRule id rule)
    (if d.lacks id rule then count + 1 else count, next)

/-- Adds the edits that one rule of a symbol gives rise to. -/
def addEdits (best : Candidates) (includeTrees : Bool) (id : SymbolId)
    (state : EditCounts × Draft) (rule : Rule) : EditCounts × Draft :=
  let (insertions, d) := pushAll id (insertionsOf best includeTrees id rule) state.2
  let (transpositions, d) := pushAll id (transpositionOf? rule).toList d
  ({ state.1 with
      insertions := state.1.insertions + insertions
      transpositions := state.1.transpositions + transpositions }, d)

/-- Adds the edits of all rules that one symbol has before. -/
def addEditsOf (best : Candidates) (includeTrees : Bool) (state : EditCounts × Draft)
    (id : SymbolId) : EditCounts × Draft :=
  ((state.2.rules id).filter fun rule => !rule.isEdit).foldl (addEdits best includeTrees id) state

/-- Adds all edits, with counts of what was added. -/
def withEdits (d : Draft) (includeTrees : Bool) : EditCounts × Draft :=
  let best := d.candidates
  d.liveSymbols.foldl (addEditsOf best includeTrees) ({ insertable := best.length }, d)

end Draft

end QueryGrammar
