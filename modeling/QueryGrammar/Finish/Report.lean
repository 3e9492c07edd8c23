import QueryGrammar.Document.OfDraft
import QueryGrammar.Draft.StopWords
import QueryGrammar.Finish.Ambiguity
import QueryGrammar.Finish.Edits
import QueryGrammar.Finish.Tokenize
import QueryGrammar.Options
/-!
Finishing a draft: stop words are filled, what is unused is removed, terminals are brought to
single tokens, edits are added, and the result is written as a document with a report.
-/
namespace QueryGrammar

/-- Counts and findings of a build. -/
structure Report where
  symbols : Nat
  rules : Nat
  semantics : Nat
  entityCategories : Nat
  unused : List String
  normalizedTerminals : Nat
  edits : EditCounts
  ambiguities : List Ambiguity
  digest : String

namespace Report

def ambiguityJson (a : Ambiguity) : Json :=
  .record [("symbol", .text a.symbol), ("rhs", .texts a.rhs), ("rules", .nat a.rules)]

def toJson (r : Report) : Json :=
  .record
    [("symbols", .nat r.symbols), ("rules", .nat r.rules), ("semantics", .nat r.semantics),
      ("entityCategories", .nat r.entityCategories), ("unused", .texts r.unused),
      ("normalizedTerminals", .nat r.normalizedTerminals),
      ("insertableSymbols", .nat r.edits.insertable), ("insertions", .nat r.edits.insertions),
      ("transpositions", .nat r.edits.transpositions),
      ("ambiguities", .array (r.ambiguities.map ambiguityJson)), ("digest", .text r.digest)]

end Report

/-- A finished grammar. -/
structure Compilation where
  grammar : Document
  report : Report

namespace Draft

/-- Finishes a draft whose stop words are filled and whose unused components are removed. -/
def complete (d : Draft) (o : Options) (unused : List String) : Compilation × Draft :=
  let (normalizedTerminals, d) := d.tokenize
  let (edits, d) := d.withEdits o.includeTrees
  let ambiguities := if o.checkAmbiguity then d.ambiguities else []
  let grammar := Document.ofDraft d
  ({ grammar := grammar
     report :=
      { symbols := grammar.ruleSets.size
        rules := grammar.ruleCount
        semantics := grammar.semantics.size
        entityCategories := grammar.entityCategories.size
        unused := unused
        normalizedTerminals := normalizedTerminals
        edits := edits
        ambiguities := ambiguities
        digest := grammar.digest } }, d)

/-- Finishes a draft. -/
def finish (o : Options) : Change Draft Compilation := do
  let _ ← StopWords.fill
  let unused ← Change.call (·.removeUnused o.unusedPolicy)
  Change.call fun d => return d.complete o unused

end Draft

end QueryGrammar
