import QueryGrammar.Finish.Report
import QueryGrammar.Workspace.Category
import QueryGrammar.Workspace.Negation
/-!
Compiling content modules into a document. All modules register into one workspace; one that fails
does not keep the others from registering, so that all failures are reported together.
-/
namespace QueryGrammar

/-- A unit of content. -/
structure ContentModule where
  name : String
  register : Registration Unit

structure FailedModule where
  module : String
  error : BuildError

namespace FailedModule

def message (f : FailedModule) : String := f.module ++ ": " ++ f.error.message

end FailedModule

inductive CompileFailure where
  | modules (failures : List FailedModule)
  | finalize (error : BuildError)

namespace CompileFailure

def message : CompileFailure → String
  | modules failures =>
    toString failures.length ++ " content module(s) failed: " ++
      String.intercalate "; " (failures.map FailedModule.message)
  | finalize error => "finalization failed: " ++ error.message

end CompileFailure

/-- Registers the modules in order and returns those that failed with the workspace they leave. -/
def registerAll : List ContentModule → Workspace → List FailedModule × Workspace
  | [], ws => ([], ws)
  | m :: ms, ws =>
    let (outcome, ws) := m.register.perform ws
    let (failures, ws) := registerAll ms ws
    match outcome with
    | .ok () => (failures, ws)
    | .error error => (⟨m.name, error⟩ :: failures, ws)

/-- The document and the report of the modules. -/
def compile (modules : List ContentModule) (o : Options) : Except CompileFailure Compilation :=
  let (failures, ws) := registerAll modules {}
  if failures.isEmpty then ((Draft.finish o).perform ws.draft).1.mapError .finalize
  else .error (.modules failures)

end QueryGrammar
