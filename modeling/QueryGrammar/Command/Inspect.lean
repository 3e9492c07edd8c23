import QueryGrammar.Command.Answer
import QueryGrammar.Command.Line
import QueryGrammar.Document.Reader
import QueryGrammar.Files.Access
/-!
Showing what a document holds, and whether its digest is that of its content.
-/
namespace QueryGrammar

namespace NamedRhs

def shown : NamedRhs → String
  | symbols names => String.intercalate " " names
  | terminal term => "\"" ++ term ++ "\""
  | termSequence names => String.intercalate " " names
  | placeholder category => category

end NamedRhs

namespace NamedAttachment

/-- A deferred chain is shown as a nested call whose arguments are left open. -/
def shown (g : Document) : NamedAttachment → String
  | fixed nodes => g.render nodes
  | deferred functions =>
    String.intercalate "(" functions ++ "(..)" ++
      String.ofList (List.replicate (functions.length - 1) ')')

end NamedAttachment

namespace NamedEdit

def shown : NamedEdit → String
  | insertion i =>
    let side := match i.position with
      | .before => "Before"
      | .after => "After"
    s!"<inserted {side} {Decimal.plain i.cost}>"
  | transposition cost => s!"<transposed {Decimal.plain cost}>"

end NamedEdit

namespace NamedRule

/-- A rule on one line. -/
def shown (g : Document) (rule : NamedRule) : String :=
  let semantic := rule.semantic.map fun a => "=> " ++ a.shown g
  let insertion := rule.insertionCost.map fun cost => s!"[insert {Decimal.plain cost}]"
  String.intercalate "  "
    (rule.rhs.shown :: semantic.toList ++ insertion.toList ++ (rule.edit.map NamedEdit.shown).toList)

end NamedRule

namespace Document

def hasOwnDigest (g : Document) : Bool := g.contentDigest == g.digest

def summaryJson (g : Document) (path : String) : Json :=
  .record
    [("path", .text path), ("schema", .nat g.schema.toNat), ("grammarKind", .text g.grammarKind),
      ("startSymbol", .text g.startSymbol), ("digest", .text g.digest),
      ("digestOk", .bool g.hasOwnDigest), ("symbols", .nat g.ruleSets.size),
      ("rules", .nat g.ruleCount), ("editRules", .nat g.editRuleCount),
      ("semantics", .nat g.semantics.size), ("entityCategories", .nat g.entityCategories.size)]

def summaryLines (g : Document) (path : String) : List String :=
  ["lexgram inspect",
    s!"  Path: {path}",
    s!"  Kind: {g.grammarKind} (schema {g.schema})",
    s!"  Start symbol: {g.startSymbol}",
    s!"  Digest: {g.digest}",
    s!"  Digest verified: {Answer.yesOrNo g.hasOwnDigest}",
    s!"  Symbols: {g.ruleSets.size}",
    s!"  Rules: {g.ruleCount} ({g.editRuleCount} edit)",
    s!"  Semantics: {g.semantics.size}",
    s!"  Entity categories: {g.entityCategories.size}"]

end Document

namespace InspectRequest

variable {m : Type → Type} [Monad m] [Files m]

/-- Shows the rules of a symbol. -/
def answerSymbol (r : InspectRequest) (g : Document) (symbol : String) : Answer :=
  match g.ruleSets.find? symbol with
  | none => .failure [s!"symbol not found: {symbol}"]
  | some rules =>
    if r.json then
      .ofJson (.record
        [("symbol", .text symbol), ("rules", .array (rules.map NamedRule.toJson))])
    else .ofLines (symbol :: rules.map fun rule => "  " ++ rule.shown g)

/-- Sums up the whole document; a digest that is not its own makes the inspection fail. -/
def answerWhole (r : InspectRequest) (g : Document) : Answer :=
  let summary :=
    if r.json then Answer.ofJson (g.summaryJson r.path) else .ofLines (g.summaryLines r.path)
  { summary with exitCode := if g.hasOwnDigest then 0 else 1 }

def answer (r : InspectRequest) (g : Document) : Answer :=
  match r.symbol with
  | some symbol => r.answerSymbol g symbol
  | none => r.answerWhole g

/-- The document that a file holds. -/
def document (r : InspectRequest) : ExceptT BuildError m Document := do
  match Document.ofText? (← Files.load r.path) with
  | some g => return g
  | none => throw (.document "not a grammar document")

def run (r : InspectRequest) : m Answer := do
  match ← r.document.run with
  | .ok g => return r.answer g
  | .error error => return .failure [s!"failed to read grammar at {r.path}: {error.message}"]

end InspectRequest

end QueryGrammar
