import QueryGrammar.Json.Writer
/-!
What a command answers.
-/
namespace QueryGrammar

structure Answer where
  exitCode : UInt8 := 0
  /-- The text printed. -/
  printed : String := ""
  /-- What went wrong, one complaint each. -/
  errors : List String := []
  deriving DecidableEq

namespace Answer

def ofLines (lines : List String) : Answer :=
  { printed := String.join (lines.map (· ++ "\n")) }

/-- A value in its pretty form, with the members of objects in ascending order. -/
def ofJson (value : Json) : Answer := ofLines [value.sortMembers.toPretty]

def failure (errors : List String) : Answer := { exitCode := 1, errors := errors }

def yesOrNo (b : Bool) : String := if b then "yes" else "no"

end Answer

end QueryGrammar
