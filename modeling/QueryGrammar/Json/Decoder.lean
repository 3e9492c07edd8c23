import QueryGrammar.Json.Basic
import QueryGrammar.Order.SortedMap
/-!
Taking typed values out of JSON. Every decoder is told how many levels of arrays and objects it may
still enter, so nesting is bounded; what nobody decodes may nest as it likes.
-/
namespace QueryGrammar

/-- Decodes a value, given the levels it may still enter. -/
abbrev Decoder (α : Type) := Nat → Json → Option α

namespace Decoder

variable {α : Type}

def text : Decoder String
  | _, .string s => s
  | _, _ => none

def flag : Decoder Bool
  | _, .bool b => some b
  | _, _ => none

/-- A natural number below `bound`, written without point and exponent. -/
def natural (bound : Nat) : Decoder Nat
  | _, .number n => n.toNat? bound
  | _, _ => none

def word32 : Decoder UInt32 := fun levels j => (natural UInt32.size levels j).map UInt32.ofNat

def word64 : Decoder UInt64 := fun levels j => (natural UInt64.size levels j).map UInt64.ofNat

def float : Decoder Float
  | _, .number n => n.toFloat?
  | _, _ => none

def list (item : Decoder α) : Decoder (List α)
  | levels + 1, .array items => items.mapM (item levels)
  | _, _ => none

/-- A value or null. -/
def optional (value : Decoder α) : Decoder (Option α)
  | _, .null => some none
  | levels, j => (value levels j).map some

/-- The members of an object by name; a repeated name keeps its last value. -/
def map (value : Decoder α) : Decoder (SortedMap α)
  | levels + 1, .object members => do
    let pairs ← members.mapM fun (name, j) => do
      return (← name, ← value levels j)
    return .ofList pairs
  | _, _ => none

/-- The value of a field, where the field is present. -/
def present (value : Decoder α) : Nat → Option Json → Option α
  | levels, some j => value levels j
  | _, none => none

/-- The value of a field that may be left out. -/
def orElse (default : α) (value : Decoder α) : Nat → Option Json → Option α
  | levels, some j => value levels j
  | _, none => some default

/-- The value of a field that may be left out or null. -/
def absent (value : Decoder α) : Nat → Option Json → Option (Option α) :=
  orElse none (optional value)

/-- The only value that goes by a name, none if there is none; a repeated name is refused. -/
def uniqueMember (members : List (String × Json)) (name : String) : Option (Option Json) :=
  match members.filter fun m => m.1 == name with
  | [] => some none
  | [m] => some (some m.2)
  | _ => none

/-- The fields of a record in the order of their names. An object gives them by name and may have
others besides; an array gives them in order and may leave the last ones out. -/
def fields (names : List String) : Json → Option (List (Option Json))
  | .object members => do
    let members ← members.mapM fun (name, j) => name.map fun n => (n, j)
    names.mapM (uniqueMember members)
  | .array items =>
    if items.length ≤ names.length then
      some (items.map some ++ List.replicate (names.length - items.length) none)
    else none
  | _ => none

/-- A record of named fields. -/
def record (names : List String) (build : Nat → List (Option Json) → Option α) : Decoder α
  | levels + 1, j => do build levels (← fields names j)
  | _, _ => none

/-- A tagged value: the tag alone, or an object of one member named by the tag. -/
def tagged (bare : String → Option α) (value : Nat → String → Json → Option α) : Decoder α
  | _, .string (some tag) => bare tag
  | levels + 1, .object [(some tag, j)] => value levels tag j
  | _, _ => none

/-- One of several tags. -/
def tag (ofName : String → Option α) : Decoder α :=
  tagged ofName fun _ name j =>
    match j with
    | .null => ofName name
    | _ => none

/-- Whether a value can be taken in whole: every string is text, every number is a double, and the
nesting is within the levels allowed. -/
def isWhole : Nat → Json → Bool
  | _, .null => true
  | _, .bool _ => true
  | _, .number n => n.toFloat?.isSome
  | _, .string s => s.isSome
  | levels + 1, .array items => items.all (isWhole levels)
  | levels + 1, .object members => members.all fun (name, j) => name.isSome && isWhole levels j
  | 0, .array _ => false
  | 0, .object _ => false

end Decoder

end QueryGrammar
