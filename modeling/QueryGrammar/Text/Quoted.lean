import QueryGrammar.Text.PrintData
import QueryGrammar.Text.LowerCase
/-!
A text between double quotes with every character visible: quotes, backslashes and the common
controls take a backslash, and what would not show, or would join its neighbour, is written as
its number in braces.
-/
namespace QueryGrammar.Text

/-- The digits of a number in lower-case hexadecimal. -/
def hexDigits (n : Nat) : List Char := Nat.toDigits 16 n

/-- A character as it stands between quotes. -/
def quotedChar (c : Char) : List Char :=
  if c == '\x00' then ['\\', '0']
  else if c == '\t' then ['\\', 't']
  else if c == '\r' then ['\\', 'r']
  else if c == '\n' then ['\\', 'n']
  else if c == '\\' || c == '"' then ['\\', c]
  else if inSpans graphemeExtendSpans c || inSpans unprintableSpans c then
    ['\\', 'u', '\x7b'] ++ hexDigits c.toNat ++ ['\x7d']
  else [c]

/-- The text between double quotes, every character visible. -/
def quoted (text : String) : String :=
  String.ofList ('"' :: text.toList.flatMap quotedChar ++ ['"'])

end QueryGrammar.Text
