import QueryGrammar.Change
import QueryGrammar.Draft.Registration
/-!
The stop words of negations. A symbol of stop words is filled when the grammar is finished, once
the symbol it must avoid has all its rules; words that this symbol can produce itself are left out.
-/
namespace QueryGrammar.StopWords

def defaults : List String :=
  ["am", "are", "be", "been", "can", "could", "did", "do", "does", "had", "has", "have", "is",
    "may", "might", "must", "shall", "should", "was", "were", "will", "would"]

/-- The tokens of the terminals among a symbol's rules. -/
def tokensOf (d : Draft) (id : SymbolId) : List String :=
  (d.rules id).flatMap fun rule =>
    match rule.expansion with
    | .terminal term _ => Text.wordsOf term
    | _ => []

/-- Every token that a symbol can produce through any of its expansions. -/
def conflictingTokens (d : Draft) (root : SymbolId) : List String :=
  (d.reachedFrom (fun _ => true) [root]).flatMap (tokensOf d)

/-- The stop words that do not conflict with a symbol. -/
def allowed (d : Draft) (conflicting : Option SymbolId) : List String :=
  match conflicting with
  | none => defaults
  | some id =>
    let excluded := conflictingTokens d id
    defaults.filter fun word => !excluded.contains word

/-- Gives a symbol its stop words, which show nothing. -/
def fillOne (stopWord : SymbolId) (words : List String) : Change Draft Unit :=
  words.forM fun word =>
    Change.call fun d => return ((), ← d.addRule stopWord (.terminal word .silent))

/-- Fills all symbols that wait for their stop words and returns how many there were. The words of
all are settled before any is filled, so the stop words of one are no tokens of another's
conflicting symbol. -/
def fill : Change Draft Nat := do
  let d ← get
  let settled := d.pendingStopWords.map fun (stopWord, conflicting) =>
    (stopWord, allowed d conflicting)
  set { d with pendingStopWords := [] }
  settled.forM fun (stopWord, words) => fillOne stopWord words
  return settled.length

end QueryGrammar.StopWords
