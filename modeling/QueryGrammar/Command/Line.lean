import QueryGrammar.Command.Arguments
import QueryGrammar.Options
/-!
The command line: what is asked for, or why nothing is done.
-/
namespace QueryGrammar

/-- What a build is asked for. -/
structure BuildRequest where
  output : String := "grammar.json"
  /-- The file that options are read from, besides those given here. -/
  config : Option String := none
  options : Options := {}
  json : Bool := false
  deriving DecidableEq

/-- What an inspection is asked for. -/
structure InspectRequest where
  path : String
  /-- The symbol whose rules are asked for. -/
  symbol : Option String := none
  json : Bool := false
  deriving DecidableEq

inductive Command where
  | build (request : BuildRequest)
  | inspect (request : InspectRequest)
  deriving DecidableEq

/-- Why a command line cannot be carried out. -/
inductive Misuse where
  | noCommand
  | unknownCommand (name : String)
  | notUnderstood (argument : String)
  | repeated (option : String)
  | surplus (operand : String)
  | noPath
  deriving DecidableEq

namespace Misuse

def message : Misuse → String
  | noCommand => "a command is required: build or inspect"
  | unknownCommand name => s!"unknown command: {name}"
  | notUnderstood argument => s!"argument not understood: {argument}"
  | repeated option => s!"option given more than once: {option}"
  | surplus operand => s!"unexpected argument: {operand}"
  | noPath => "the path of a grammar document is required"

end Misuse

/-- Why there is no command: something else was asked for, or the line is misused. -/
inductive NoCommand where
  | help
  | version
  | misuse (m : Misuse)
  deriving DecidableEq

inductive CommandOption where
  | output
  | config
  | trees
  | quiet
  | checkAmbiguity
  | json
  | symbol
  | verbose
  | help
  | version
  deriving DecidableEq

namespace CommandOption

def name : CommandOption → String
  | output => "output"
  | config => "config"
  | trees => "trees"
  | quiet => "quiet"
  | checkAmbiguity => "check-ambiguity"
  | json => "json"
  | symbol => "symbol"
  | verbose => "verbose"
  | help => "help"
  | version => "version"

def letter? : CommandOption → Option Char
  | output => some 'o'
  | verbose => some 'v'
  | help => some 'h'
  | version => some 'V'
  | _ => none

def takesValue : CommandOption → Bool
  | output | config | symbol => true
  | _ => false

/-- The names of the given options. -/
def names (options : List CommandOption) : OptionNames CommandOption where
  ofLong? text := options.find? fun o => o.name == text
  ofShort? c := options.find? fun o => o.letter? == some c
  takesValue := takesValue

/-- The options that stand before the command. -/
def ofProgram : List CommandOption := [verbose, help, version]

def ofBuild : List CommandOption :=
  [output, config, trees, quiet, checkAmbiguity, json, verbose, help]

def ofInspect : List CommandOption := [symbol, json, verbose, help]

end CommandOption

/-- The arguments of a command that have been taken in. -/
structure Given where
  options : List (CommandOption × Option String) := []
  operands : List String := []

namespace Given

def has (g : Given) (o : CommandOption) : Bool := g.options.any (·.1 == o)

def value? (g : Given) (o : CommandOption) : Option String := (g.options.lookup o).join

/-- Takes in an argument of a command that has room for so many operands. Only `verbose` may be
repeated. -/
def take (room : Nat) (g : Given) : Argument CommandOption → Except NoCommand Given
  | .misused text => .error (.misuse (.notUnderstood text))
  | .operand text =>
    if g.operands.length < room then .ok { g with operands := g.operands ++ [text] }
    else .error (.misuse (.surplus text))
  | .option .help _ => .error .help
  | .option .version _ => .error .version
  | .option .verbose _ => .ok g
  | .option o value =>
    if g.has o then .error (.misuse (.repeated o.name))
    else .ok { g with options := g.options ++ [(o, value)] }

/-- Takes in all arguments in order; the first that is refused decides. -/
def ofTexts (options : List CommandOption) (room : Nat) (texts : List String) :
    Except NoCommand Given :=
  ((CommandOption.names options).arguments texts).foldlM (take room) {}

end Given

namespace BuildRequest

def ofTexts (texts : List String) : Except NoCommand BuildRequest := do
  let g ← Given.ofTexts CommandOption.ofBuild 0 texts
  return {
    output := (g.value? .output).getD "grammar.json"
    config := g.value? .config
    options :=
      { includeTrees := g.has .trees
        quiet := g.has .quiet
        checkAmbiguity := g.has .checkAmbiguity }
    json := g.has .json }

end BuildRequest

namespace InspectRequest

def ofTexts (texts : List String) : Except NoCommand InspectRequest := do
  let g ← Given.ofTexts CommandOption.ofInspect 1 texts
  match g.operands with
  | [] => throw (.misuse .noPath)
  | path :: _ => return { path := path, symbol := g.value? .symbol, json := g.has .json }

end InspectRequest

namespace Command

/-- The names of what help can be asked about. -/
def topics : List String := ["build", "inspect", "help"]

/-- The command of a line. Options of the program may stand before it. -/
def ofTexts : List String → Except NoCommand Command
  | [] => .error (.misuse .noCommand)
  | "build" :: texts => return .build (← BuildRequest.ofTexts texts)
  | "inspect" :: texts => return .inspect (← InspectRequest.ofTexts texts)
  | ["help"] => .error .help
  | "help" :: topic :: texts =>
    if topics.contains topic && texts.isEmpty then .error .help
    else .error (.misuse (.unknownCommand topic))
  | text :: texts =>
    if text == "--" then .error (.misuse .noCommand)
    else if isOptionText text then do
      let _ ← Given.ofTexts CommandOption.ofProgram 0 [text]
      ofTexts texts
    else .error (.misuse (.unknownCommand text))

end Command

end QueryGrammar
