/-!
The arguments of a command: options, long ones after two dashes and one-letter ones after one dash,
and operands. After two dashes alone everything is an operand.
-/
namespace QueryGrammar

/-- The options of a command. -/
structure OptionNames (ι : Type) where
  ofLong? : String → Option ι
  ofShort? : Char → Option ι
  takesValue : ι → Bool

/-- An argument as it is understood. What cannot be understood is kept too, since an argument
before it may decide. -/
inductive Argument (ι : Type) where
  | option (o : ι) (value : Option String)
  | operand (text : String)
  | misused (text : String)

/-- Whether an argument is none but an option: it starts with a dash that does not stand alone. -/
def isOptionText (text : String) : Bool := text.startsWith "-" && text != "-"

namespace OptionNames

variable {ι : Type} (names : OptionNames ι)

/-- One-letter options after one dash. An option that takes a value takes the rest, with or without
an equals sign before it; where nothing is left, it waits for the next argument. -/
def ofCluster : List Char → List (Argument ι) × Option ι
  | [] => ([], none)
  | c :: cs =>
    match names.ofShort? c with
    | none => ([.misused (String.ofList ['-', c])], none)
    | some o =>
      if names.takesValue o then
        match cs with
        | [] => ([], some o)
        | '=' :: value => ([.option o (some (String.ofList value))], none)
        | value => ([.option o (some (String.ofList value))], none)
      else
        let (arguments, waiting) := ofCluster cs
        (.option o none :: arguments, waiting)

/-- A long option after two dashes; a value may follow it after an equals sign. -/
def ofLongText (text : List Char) : List (Argument ι) × Option ι :=
  let name := String.ofList (text.takeWhile (· != '='))
  match names.ofLong? name, text.dropWhile (· != '=') with
  | none, _ => ([.misused ("--" ++ name)], none)
  | some o, [] => if names.takesValue o then ([], some o) else ([.option o none], none)
  | some o, _ :: value =>
    if names.takesValue o then ([.option o (some (String.ofList value))], none)
    else ([.misused ("--" ++ name)], none)

/-- What one text means, and the option in it that waits for its value. -/
def ofText (text : String) : List (Argument ι) × Option ι :=
  match text.toList with
  | ['-'] => ([.operand text], none)
  | '-' :: '-' :: cs => names.ofLongText cs
  | '-' :: cs => names.ofCluster cs
  | _ => ([.operand text], none)

/-- The arguments that the texts stand for. An option that waits for its value takes the next text,
unless that is none but an option. -/
def arguments : List String → List (Argument ι)
  | [] => []
  | text :: texts =>
    if text == "--" then texts.map .operand
    else
      match names.ofText text, texts with
      | (found, none), texts => found ++ arguments texts
      | (found, some o), value :: texts =>
        if isOptionText value then found ++ [.misused text]
        else found ++ .option o (some value) :: arguments texts
      | (found, some _), [] => found ++ [.misused text]

end OptionNames

end QueryGrammar
