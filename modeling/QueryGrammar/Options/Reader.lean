import QueryGrammar.Options
import QueryGrammar.Toml.Reader
/-!
Options as settings: a table `build` of flags. The table may stand under its heading, in braces, as
dotted keys, or as an array of the flags in order.
-/
namespace QueryGrammar.Options

open Toml

/-- The options that the entries of a table give; all entries must be known. -/
def ofEntries? (entries : List Entry) : Option Options := do
  let flags ← entries.mapM fun (key, value) =>
    match key, value with
    | [name], .flag b => some (name, b)
    | _, _ => none
  if flags.all fun (name, _) => ["include-trees", "quiet", "check-ambiguity"].contains name then
    return {
      includeTrees := (flags.lookup "include-trees").getD false
      quiet := (flags.lookup "quiet").getD false
      checkAmbiguity := (flags.lookup "check-ambiguity").getD false }
  else none

/-- The options that an array gives in order; what is missing is not set, and what follows the third
item is passed over. -/
def ofItems? (items : List Value) : Option Options := do
  let flags ← (items.take 3).mapM fun value =>
    match value with
    | .flag b => some b
    | _ => none
  return {
    includeTrees := flags[0]?.getD false
    quiet := flags[1]?.getD false
    checkAmbiguity := flags[2]?.getD false }

def ofValue? : Value → Option Options
  | .table entries => ofEntries? entries
  | .array items => ofItems? items
  | _ => none

/-- An entry of the table `build` that stands outside it. -/
def inner? : Entry → Option Entry
  | ("build" :: key, value) => some (key, value)
  | _ => none

def ofSettings? (s : Settings) : Option Options :=
  match s.top, s.sections with
  | [(["build"], value)], [] => ofValue? value
  | top, [] => do ofEntries? (← top.mapM inner?)
  | [], [(⟨["build"], false⟩, entries)] => ofEntries? entries
  | _, _ => none

/-- The options that a text gives. -/
def ofText? (text : String) : Option Options := (Settings.ofText? text).bind ofSettings?

/-- What is wrong with a text that gives no options. -/
def unreadable : String := "not a table `build` of known flags"

def ofText (text : String) : Outcome Options :=
  match ofText? text with
  | some o => .ok o
  | none => .error (.options unreadable)

end QueryGrammar.Options
