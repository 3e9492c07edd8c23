import QueryGrammar.Workspace.Conjunction
/-!
Negations. A negation reads "not" or one of its contractions, alone or after a stop word ("do
not", "have not") that shows nothing. Each symbol that a negation may stand beside has a set of its
own, which avoids the words that this symbol produces.
-/
namespace QueryGrammar

namespace Negation

/-- The forms read as "not". -/
def contractions : List String :=
  ["don't", "doesn't", "didn't", "can't", "cannot", "won't", "isn't", "aren't", "wasn't",
    "weren't", "haven't", "hasn't", "hadn't"]

/-- The name parts of the negation and of its stop words. -/
def nameParts (d : Draft) (conflicting : Option SymbolId) : Outcome (String × String) :=
  match conflicting with
  | none => .ok ("negation", "negation-stop-word")
  | some id => do
    let stem := Name.stem (← d.live id).name
    return ("negation-for-" ++ stem, "negation-stop-word-for-" ++ stem)

end Negation

namespace Workspace

open Registration

/-- The word "not", registered on first use. -/
def notWordOnce : Registration SymbolId := do
  if let some id := (← get).notWord then return id
  let id ← addWord "not" ["not"] Negation.contractions none
  modify fun ws => { ws with notWord := some id }
  return id

/-- The negation beside a symbol, or beside none in particular, registered on first use. -/
def negation (conflicting : Option SymbolId) : Registration NegationSet := do
  if let some set := (← get).negations.lookup conflicting then return set
  let (part, stopPart) ← ask (Negation.nameParts · conflicting)
  ask fun d => [part, stopPart].forM (Conjunction.checkPartFree d)
  if (← get).notWord.isNone then ask (·.checkFree "[not]")
  let not ← notWordOnce
  let symbol ← newSymbol [part]
  let stopWord ← call (·.newSymbolOf true [stopPart])
  addRule symbol (.unary not)
  addBinaryRule symbol ((Proposal.binary stopWord not).closing [0])
  update fun d =>
    return { d with pendingStopWords := d.pendingStopWords ++ [(stopWord, conflicting)] }
  let set : NegationSet := ⟨symbol, stopWord, conflicting⟩
  modify fun ws => { ws with negations := ws.negations ++ [(conflicting, set)] }
  return set

end Workspace

end QueryGrammar
