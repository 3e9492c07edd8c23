import QueryGrammar.Toml.Scalar
import QueryGrammar.Toml.Text
/-!
Reading settings files. A statement takes up its line; within an array lines may break, within a
table in braces they may not.
-/
namespace QueryGrammar.Toml

mutual

/-- A value and what follows it, which may enter so many levels of arrays and tables. Of two steps
one takes a character, so twice the length of the text is fuel enough. -/
def readValue (levels : Nat) : Nat → List Char → Option (Value × List Char)
  | 0, _ => none
  | fuel + 1, cs =>
    match cs with
    | '"' :: '"' :: '"' :: cs => (readLong '"' cs).map fun (s, rest) => (.text s, rest)
    | '"' :: cs => (readShort '"' cs).map fun (s, rest) => (.text s, rest)
    | '\'' :: '\'' :: '\'' :: cs => (readLong '\'' cs).map fun (s, rest) => (.text s, rest)
    | '\'' :: cs => (readShort '\'' cs).map fun (s, rest) => (.text s, rest)
    | '[' :: cs =>
      match levels with
      | 0 => none
      | levels + 1 => (readItems levels fuel cs).map fun (items, rest) => (.array items, rest)
    | '\x7b' :: cs =>
      match levels with
      | 0 => none
      | levels + 1 => do
        let (entries, rest) ← match skipBlanks cs with
          | '\x7d' :: rest => some ([], rest)
          | _ => readEntries levels fuel cs
        if areConsistent entries then some (.table entries, rest) else none
    | cs => readScalar cs

/-- The items of an array up to its closing bracket; a comma may follow the last one. -/
def readItems (levels : Nat) : Nat → List Char → Option (List Value × List Char)
  | 0, _ => none
  | fuel + 1, cs =>
    match skipGap false cs with
    | ']' :: rest => some ([], rest)
    | cs => do
      let (item, rest) ← readValue levels fuel cs
      match skipGap false rest with
      | ',' :: rest =>
        let (items, rest) ← readItems levels fuel rest
        return (item :: items, rest)
      | ']' :: rest => return ([item], rest)
      | _ => none

/-- The entries of a table in braces up to its closing brace. -/
def readEntries (levels : Nat) : Nat → List Char → Option (List Entry × List Char)
  | 0, _ => none
  | fuel + 1, cs => do
    let (entry, rest) ← readEntry levels fuel cs
    match skipBlanks rest with
    | ',' :: rest =>
      let (entries, rest) ← readEntries levels fuel rest
      return (entry :: entries, rest)
    | '\x7d' :: rest => return ([entry], rest)
    | _ => none

/-- A key, an equals sign and a value. -/
def readEntry (levels : Nat) : Nat → List Char → Option (Entry × List Char)
  | 0, _ => none
  | fuel + 1, cs => do
    match ← readKey maxLevels cs with
    | (key, '=' :: rest) =>
      let (value, rest) ← readValue levels fuel (skipBlanks rest)
      return ((key, value), rest)
    | _ => none

end

/-- A line that says something. -/
inductive Statement where
  | entry (e : Entry)
  | heading (h : Heading)

/-- The rest of a heading, after its opening brackets. -/
def readHeading (isOneOfMany : Bool) (cs : List Char) : Option (Heading × List Char) := do
  match ← readKey maxLevels cs, isOneOfMany with
  | (key, ']' :: ']' :: rest), true => return (⟨key, true⟩, rest)
  | (key, ']' :: rest), false => return (⟨key, false⟩, rest)
  | _, _ => none

/-- A statement and what follows it on its line. -/
def readStatement : List Char → Option (Statement × List Char)
  | '[' :: '[' :: cs => (readHeading true cs).map fun (h, rest) => (.heading h, rest)
  | '[' :: cs => (readHeading false cs).map fun (h, rest) => (.heading h, rest)
  | cs => (readEntry maxLevels (2 * cs.length + 2) cs).map fun (e, rest) => (.entry e, rest)

/-- All statements of a text; its number of lines is fuel enough. -/
def readStatements : Nat → List Char → Option (List Statement)
  | 0, _ => none
  | fuel + 1, cs =>
    match skipBlanks cs with
    | [] => some []
    | cs =>
      match finishLine cs with
      | some rest => readStatements fuel rest
      | none => do
        let (statement, rest) ← readStatement cs
        let statements ← readStatements fuel (← finishLine rest)
        return statement :: statements

namespace Settings

/-- Puts a statement in front. What has been above the first heading is below a new one. -/
def cons (s : Settings) : Statement → Settings
  | .entry e => { s with top := e :: s.top }
  | .heading h => { top := [], sections := (h, s.top) :: s.sections }

def ofStatements (statements : List Statement) : Settings :=
  statements.foldr (fun statement s => s.cons statement) {}

/-- Whether no key is given twice in one section. -/
def isConsistent (s : Settings) : Bool :=
  areConsistent s.top && s.sections.all fun (_, entries) => areConsistent entries

/-- The settings that a text holds. A byte order mark in front is passed over. -/
def ofText? (text : String) : Option Settings := do
  let cs := match text.toList with
    | '\ufeff' :: cs => cs
    | cs => cs
  let s := ofStatements (← readStatements (cs.length + 1) cs)
  if s.isConsistent then some s else none

end Settings

end QueryGrammar.Toml
