import QueryGrammar.Json.Reader
import QueryGrammar.Toml.Basic
/-!
Blanks, comments, quoted texts and keys of settings files.
-/
namespace QueryGrammar.Toml

def isBlank (c : Char) : Bool := c == ' ' || c == '\t'

/-- Whether a character may stand as itself in a comment or a quoted text: the only control
character that may is the tab. -/
def isPlain (c : Char) : Bool := c == '\t' || (0x20 ≤ c.toNat && c.toNat != 0x7F)

def skipBlanks (cs : List Char) : List Char := cs.dropWhile isBlank

/-- What follows a line end: a line feed, with or without a carriage return before it. -/
def lineEnd? : List Char → Option (List Char)
  | '\n' :: cs => some cs
  | '\r' :: '\n' :: cs => some cs
  | _ => none

def skipComment : List Char → List Char
  | '#' :: cs => cs.dropWhile isPlain
  | cs => cs

/-- What follows a line on which nothing but blanks and a comment is left. -/
def finishLine (cs : List Char) : Option (List Char) :=
  match skipComment (skipBlanks cs) with
  | [] => some []
  | cs => lineEnd? cs

/-- Skips blanks and line ends. -/
def skipEmptyLines : List Char → List Char
  | '\r' :: '\n' :: cs => skipEmptyLines cs
  | c :: cs => if isBlank c || c == '\n' then skipEmptyLines cs else c :: cs
  | [] => []

/-- Skips blanks, line ends and comments; a comment reaches to the end of its line. -/
def skipGap (inComment : Bool) : List Char → List Char
  | '\r' :: '\n' :: cs => skipGap false cs
  | c :: cs =>
    if c == '\n' then skipGap false cs
    else if inComment then if isPlain c then skipGap true cs else c :: cs
    else if c == '#' then skipGap true cs
    else if isBlank c then skipGap false cs
    else c :: cs
  | [] => []

/-- How a quoted text is written. -/
structure Quotation where
  mark : Char
  /-- A backslash starts an escape. -/
  hasEscapes : Bool
  /-- The text stands between triple marks and may run over several lines. -/
  isLong : Bool

/-- The character that a one-letter escape stands for. -/
def escaped? (c : Char) : Option Char :=
  if c == '/' then none else Json.escaped? c

/-- The character whose number is written in exactly `width` hexadecimal digits. -/
def readCode (width : Nat) (cs : List Char) : Option (Char × List Char) := do
  let digits ← (cs.take width).mapM Json.hexDigit?
  let n := digits.foldl (fun n d => 16 * n + d) 0
  if digits.length == width && n.isValidChar then some (Char.ofNat n, cs.drop width) else none

/-- The character of an escape, after its backslash. -/
def readEscape : List Char → Option (Char × List Char)
  | 'u' :: cs => readCode 4 cs
  | 'U' :: cs => readCode 8 cs
  | c :: cs => (escaped? c).map fun x => (x, cs)
  | [] => none

namespace Quotation

/-- Where the text ends: the marks that still belong to it, and what follows. Of five marks at the
end of a long text two belong to it. -/
def closing? (q : Quotation) (cs : List Char) : Option (List Char × List Char) :=
  let marks := (cs.takeWhile (· == q.mark)).length
  if q.isLong then
    if marks < 3 then none
    else
      let inner := min (marks - 3) 2
      some (List.replicate inner q.mark, cs.drop (inner + 3))
  else if marks = 0 then none
  else some ([], cs.drop 1)

/-- The rest of a text, after its opening marks. Each step takes a character, so the length of the
text is fuel enough. -/
def read (q : Quotation) : Nat → List Char → Option (List Char × List Char)
  | 0, _ => none
  | fuel + 1, cs =>
    match q.closing? cs with
    | some found => some found
    | none =>
      match cs with
      | [] => none
      | c :: cs =>
        if q.hasEscapes && c == '\\' then
          match readEscape cs with
          | some (x, rest) => (q.read fuel rest).map fun (text, rest) => (x :: text, rest)
          | none =>
            if q.isLong then do q.read fuel (skipEmptyLines (← lineEnd? (skipBlanks cs)))
            else none
        else
          match if q.isLong then lineEnd? (c :: cs) else none with
          | some rest => (q.read fuel rest).map fun (text, rest) => ('\n' :: text, rest)
          | none =>
            if isPlain c then (q.read fuel cs).map fun (text, rest) => (c :: text, rest)
            else none

end Quotation

/-- A text in single marks, after the opening one. -/
def readShort (mark : Char) (cs : List Char) : Option (String × List Char) :=
  (Quotation.read ⟨mark, mark == '"', false⟩ (cs.length + 1) cs).map
    fun (text, rest) => (String.ofList text, rest)

/-- A text in triple marks, after the opening ones; a line end right there is left out. -/
def readLong (mark : Char) (cs : List Char) : Option (String × List Char) :=
  (Quotation.read ⟨mark, mark == '"', true⟩ (cs.length + 1) ((lineEnd? cs).getD cs)).map
    fun (text, rest) => (String.ofList text, rest)

/-- Whether a character may stand in a key that is not quoted. -/
def isBare (c : Char) : Bool := c.isAlphanum || c == '-' || c == '_'

/-- One part of a key. -/
def readPart : List Char → Option (String × List Char)
  | '"' :: cs => readShort '"' cs
  | '\'' :: cs => readShort '\'' cs
  | cs =>
    match cs.takeWhile isBare with
    | [] => none
    | part => some (String.ofList part, cs.dropWhile isBare)

/-- How deep arrays, tables and keys may nest. -/
def maxLevels : Nat := 79

/-- A key of at most `parts` parts, with the blanks around it. -/
def readKey : Nat → List Char → Option (Key × List Char)
  | 0, _ => none
  | parts + 1, cs => do
    let (part, rest) ← readPart (skipBlanks cs)
    match skipBlanks rest with
    | '.' :: rest =>
      let (key, rest) ← readKey parts rest
      return (part :: key, rest)
    | rest => return ([part], rest)

end QueryGrammar.Toml
