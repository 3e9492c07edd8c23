import QueryGrammar.Command.Build
import QueryGrammar.Command.Inspect
/-!
Carrying out a command line.
-/
namespace QueryGrammar

namespace NoCommand

def usage : List String :=
  ["Compiler of grammars for queries in natural language",
    "",
    "Usage: lexgram [-v] COMMAND",
    "",
    "Commands:",
    "  build [-o FILE] [--config FILE] [--trees] [--quiet] [--check-ambiguity] [--json]",
    "  inspect PATH [--symbol SYMBOL] [--json]"]

/-- A misused line is no failure of the work, so it has an exit code of its own. -/
def answer : NoCommand → Answer
  | help => .ofLines usage
  | version => .ofLines ["lexgram 0.1.0"]
  | misuse m => { exitCode := 2, errors := [m.message] }

end NoCommand

namespace Command

variable {m : Type → Type} [Monad m] [Files m]

/-- Carries out a command; the stamp makes the name of a file that is being written its own. -/
def run (stamp : String) : Command → m Answer
  | build request => request.run stamp
  | inspect request => request.run

/-- Carries out the command that the texts of a line ask for. -/
def runTexts (stamp : String) (texts : List String) : m Answer :=
  match ofTexts texts with
  | .ok command => command.run stamp
  | .error reason => return reason.answer

end Command

end QueryGrammar
