/-!
Settings files: keys with values, in sections under headings. A table keeps its entries as they are
written, each with its whole dotted key, and a file keeps its sections in the order of the text.
-/
namespace QueryGrammar.Toml

/-- A dotted key: the parts from the outermost table inwards. -/
abbrev Key := List String

/-- Numbers with a fraction and moments in time keep their text. -/
inductive Value where
  | text (s : String)
  | flag (b : Bool)
  | integer (n : Int)
  | real (written : String)
  | moment (written : String)
  | array (items : List Value)
  | table (entries : List (Key × Value))

/-- An entry of a table. -/
abbrev Entry := Key × Value

/-- The line that opens a section: `[key]` for a table, `[[key]]` for one of several. -/
structure Heading where
  key : Key
  isOneOfMany : Bool
  deriving DecidableEq

structure Settings where
  /-- The entries above the first heading. -/
  top : List Entry := []
  sections : List (Heading × List Entry) := []

/-- Two keys clash when one leads to the other: both would give the same table or value. -/
def clash (a b : Key) : Bool := a.isPrefixOf b || b.isPrefixOf a

/-- Whether the entries can stand in one table. -/
def areConsistent : List Entry → Bool
  | [] => true
  | e :: es => es.all (fun f => !clash e.1 f.1) && areConsistent es

end QueryGrammar.Toml
