import QueryGrammar.Error
import QueryGrammar.Text.Blank
import QueryGrammar.Text.LowerCase
/-!
Names and terms. The symbols of content modules are written `[part-part]` and entity categories
`{name}`; symbols made while a grammar is finished are written `<...>`, which no content name can
be. Terms are kept in lower case with single spaces.
-/
namespace QueryGrammar.Name

/-- The characters that may stand in a name part. -/
def isPartChar (c : Char) : Bool :=
  !(Text.isBlank c || ['(', ')', '[', ']', '<', '>', '\x7b', '\x7d', ','].contains c)

/-- A name part is not empty and keeps clear of blanks, brackets and commas. -/
def isPart (part : String) : Bool :=
  !part.toList.isEmpty && part.toList.all isPartChar

def checkPart (part : String) : Outcome Unit :=
  if isPart part then .ok () else .error (.invalidName part .forbiddenCharacter)

/-- The name of a content symbol: `user` and `plural` give `[user-plural]`. -/
def symbol (parts : List String) : Outcome String := do
  if parts.isEmpty then throw (.invalidName "" .noParts)
  parts.forM checkPart
  return "[" ++ String.intercalate "-" parts ++ "]"

/-- A symbol name without its brackets. -/
def stem (name : String) : String :=
  let opened := name.toList.dropWhile fun c => c == '[' || c == '<' || c == '\x7b'
  let closed := opened.reverse.dropWhile fun c => c == ']' || c == '>' || c == '\x7d'
  String.ofList closed.reverse

/-- The lower-case words of a text. -/
def lowerWords (text : String) : List String :=
  (Text.words text.toList).map fun word => String.ofList (Text.lowerWord word)

/-- Free text as a name part: its words in lower case, joined by hyphens. -/
def slug (text : String) : String :=
  String.intercalate "-" (lowerWords text)

/-- A term in lower case, its words one space apart. -/
def normalizeTerm (term : String) : String :=
  String.intercalate " " (lowerWords term)

/-- A normalized term. Words that start with `<` are reserved for symbols made while finishing. -/
def checkedTerm (term : String) : Outcome String :=
  match (lowerWords term).find? fun word => word.toList.head? == some '<' with
  | some word => .error (.invalidName word .reservedToken)
  | none => .ok (normalizeTerm term)

def entityCategory (name : String) : String :=
  "\x7b" ++ name ++ "\x7d"

end QueryGrammar.Name
