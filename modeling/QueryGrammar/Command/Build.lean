import QueryGrammar.Command.Answer
import QueryGrammar.Command.Line
import QueryGrammar.Content.Repositories
import QueryGrammar.Content.Users
import QueryGrammar.Files.Access
import QueryGrammar.Options.Reader
/-!
Building the grammar of the content at hand and saving it as a document.
-/
namespace QueryGrammar

namespace Options

/-- What either asks for. -/
def union (o p : Options) : Options where
  includeTrees := o.includeTrees || p.includeTrees
  quiet := o.quiet || p.quiet
  checkAmbiguity := o.checkAmbiguity || p.checkAmbiguity

end Options

namespace CompileFailure

/-- The complaints about a failed build, one for each module that failed. -/
def complaints : CompileFailure → List String
  | modules failures => failures.map FailedModule.message
  | finalize error => [error.message]

end CompileFailure

namespace BuildRequest

variable {m : Type → Type} [Monad m] [Files m]

/-- The options of the request together with those of its file. -/
def allOptions (r : BuildRequest) : ExceptT BuildError m Options := do
  match r.config with
  | none => return r.options
  | some path =>
    let text ← (Files.readText path).adapt fun flaw => .options s!"{path}: {flaw.message}"
    match Options.ofText? text with
    | some o => return o.union r.options
    | none => throw (.options s!"{path}: {Options.unreadable}")

def modules : List ContentModule := [Content.usersModule, Content.repositoriesModule]

def reportJson (r : BuildRequest) (report : Report) : Json :=
  .record
    [("output", .text r.output), ("modules", .texts (modules.map (·.name))),
      ("report", report.toJson)]

def ambiguityLines (ambiguities : List Ambiguity) : List String :=
  s!"  Ambiguous rule groups: {ambiguities.length}" ::
    ambiguities.map fun a =>
      s!"    - {a.symbol} -> " ++ String.intercalate " " a.rhs ++ s!" ({a.rules} rules)"

def reportLines (r : BuildRequest) (o : Options) (report : Report) : List String :=
  ["lexgram build",
    s!"  Output: {r.output}",
    s!"  Digest: {report.digest}",
    s!"  Symbols: {report.symbols}",
    s!"  Rules: {report.rules}",
    s!"  Semantics: {report.semantics}",
    s!"  Entity categories: {report.entityCategories}",
    s!"  Normalized terminals: {report.normalizedTerminals}",
    s!"  Edit rules: {report.edits.insertions} insertions, " ++
      s!"{report.edits.transpositions} transpositions " ++
      s!"({report.edits.insertable} insertable symbols)",
    s!"  Insertion trees: {Answer.yesOrNo o.includeTrees}"] ++
  (if report.unused.isEmpty then []
    else ["  Unused (removed): " ++ String.intercalate ", " report.unused]) ++
  if o.checkAmbiguity then ambiguityLines report.ambiguities else []

/-- Compiles with the options, saves the document and reports on it. -/
def compileAndSave (r : BuildRequest) (stamp : String) (o : Options) :
    ExceptT BuildError m Answer := do
  match compile modules o with
  | .error failure => return .failure failure.complaints
  | .ok c =>
    Files.save stamp r.output (c.grammar.toPretty ++ "\n")
    return if r.json then .ofJson (r.reportJson c.report)
      else .ofLines (r.reportLines o c.report)

def run (r : BuildRequest) (stamp : String) : m Answer := do
  match ← (do r.compileAndSave stamp (← r.allOptions) : ExceptT BuildError m Answer).run with
  | .ok answer => return answer
  | .error error => return .failure [error.message]

end BuildRequest

end QueryGrammar
