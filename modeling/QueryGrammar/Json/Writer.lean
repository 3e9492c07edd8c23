import QueryGrammar.Json.Basic
import QueryGrammar.Order.Keyed
/-!
The two written forms of a JSON value: compact, without any blank, and pretty, indented by two
spaces a level. Strings escape quotes, backslashes and controls and nothing else.
-/
namespace QueryGrammar

namespace Numeral

def write (n : Numeral) : List Char :=
  (if n.negative then ['-'] else []) ++ n.whole ++
    (if n.fraction.isEmpty then [] else '.' :: n.fraction) ++
    match n.exponent with
    | none => []
    | some e => ['e', if e < 0 then '-' else '+'] ++ Nat.toDigits 10 e.natAbs

end Numeral

namespace Json

/-- A character inside a string. -/
def escapeChar (c : Char) : List Char :=
  if c == '"' then ['\\', '"']
  else if c == '\\' then ['\\', '\\']
  else if c == '\x08' then ['\\', 'b']
  else if c == '\x0c' then ['\\', 'f']
  else if c == '\n' then ['\\', 'n']
  else if c == '\r' then ['\\', 'r']
  else if c == '\t' then ['\\', 't']
  else if c.toNat < 0x20 then
    ['\\', 'u', '0', '0', Nat.digitChar (c.toNat / 16), Nat.digitChar (c.toNat % 16)]
  else [c]

/-- A string between quotes. What is no text is written as the lone escape that makes it so. -/
def writeString : Option String → List Char
  | some s => '"' :: s.toList.flatMap escapeChar ++ ['"']
  | none => ['"', '\\', 'u', 'd', '8', '0', '0', '"']

mutual

/-- The compact form. -/
def compact : Json → List Char
  | .null => ['n', 'u', 'l', 'l']
  | .bool true => ['t', 'r', 'u', 'e']
  | .bool false => ['f', 'a', 'l', 's', 'e']
  | .number n => n.write
  | .string s => writeString s
  | .array [] => ['[', ']']
  | .array (x :: xs) => '[' :: compact x ++ compactItems xs ++ [']']
  | .object [] => ['\x7b', '\x7d']
  | .object (m :: ms) =>
    '\x7b' :: writeString m.1 ++ ':' :: compact m.2 ++ compactMembers ms ++ ['\x7d']

def compactItems : List Json → List Char
  | [] => []
  | x :: xs => ',' :: compact x ++ compactItems xs

def compactMembers : List (Option String × Json) → List Char
  | [] => []
  | m :: ms => ',' :: writeString m.1 ++ ':' :: compact m.2 ++ compactMembers ms

end

/-- A line end and the indentation of a level. -/
def newLine (level : Nat) : List Char :=
  '\n' :: List.replicate (2 * level) ' '

mutual

/-- The pretty form at a level of indentation. -/
def prettyAt (level : Nat) : Json → List Char
  | .null => ['n', 'u', 'l', 'l']
  | .bool true => ['t', 'r', 'u', 'e']
  | .bool false => ['f', 'a', 'l', 's', 'e']
  | .number n => n.write
  | .string s => writeString s
  | .array [] => ['[', ']']
  | .array (x :: xs) =>
    '[' :: newLine (level + 1) ++ prettyAt (level + 1) x ++ prettyItems (level + 1) xs ++
      newLine level ++ [']']
  | .object [] => ['\x7b', '\x7d']
  | .object (m :: ms) =>
    '\x7b' :: newLine (level + 1) ++ writeString m.1 ++ ':' :: ' ' :: prettyAt (level + 1) m.2 ++
      prettyMembers (level + 1) ms ++ newLine level ++ ['\x7d']

def prettyItems (level : Nat) : List Json → List Char
  | [] => []
  | x :: xs => ',' :: newLine level ++ prettyAt level x ++ prettyItems level xs

def prettyMembers (level : Nat) : List (Option String × Json) → List Char
  | [] => []
  | m :: ms =>
    ',' :: newLine level ++ writeString m.1 ++ ':' :: ' ' :: prettyAt level m.2 ++
      prettyMembers level ms

end

def toCompact (j : Json) : String := String.ofList j.compact

def toPretty (j : Json) : String := String.ofList (j.prettyAt 0)

mutual

/-- The value with the members of every object in ascending order of their names; of members of
one name the last is kept. -/
def sortMembers : Json → Json
  | .null => .null
  | .bool b => .bool b
  | .number n => .number n
  | .string s => .string s
  | .array items => .array (sortItems items)
  | .object members =>
    .object ((Keyed.ofList (fun _ last => last) (sortedMembers members)).map
      fun m => (some m.1, m.2))

def sortItems : List Json → List Json
  | [] => []
  | x :: xs => sortMembers x :: sortItems xs

def sortedMembers : List (Option String × Json) → List (String × Json)
  | [] => []
  | m :: ms => (m.1.getD "", sortMembers m.2) :: sortedMembers ms

end

end Json

end QueryGrammar
