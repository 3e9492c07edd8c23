import QueryGrammar.Draft.Basic
/-!
Terminals of a single token. A parser matches one token at a time, so a terminal of several becomes
a sequence of symbols made for its tokens,

    [x] -> "a b c"   becomes   [x] -> <tok:a> <seq:b c>,  <seq:b c> -> <tok:b> <tok:c>

and an empty one refers to a symbol that matches nothing. These symbols are named for what they
read, so each is made once.
-/
namespace QueryGrammar

/-- The symbol that matches nothing, and the terminal that says so. -/
def emptyName : String := "<empty>"

namespace Draft

/-- The symbol of this name, made with the rules that `fill` gives it unless the name exists. -/
def madeOnce (name : String) (fill : SymbolId → Draft → Draft) (d : Draft) : SymbolId × Draft :=
  match d.symbols.findIdx? (·.name == name) with
  | some index => (⟨index⟩, d)
  | none =>
    let (id, d) := d.appendSymbol { name := name, isTermSequence := true }
    (id, fill id d)

/-- The symbol that reads a token. -/
def tokenReader (token : String) : Draft → SymbolId × Draft :=
  madeOnce ("<tok:" ++ token ++ ">") fun id d =>
    d.appendRule id { expansion := .terminal token .verbatim }

/-- The symbol that matches nothing. -/
def nothingReader : Draft → SymbolId × Draft :=
  madeOnce emptyName fun id d =>
    d.appendRule id { expansion := .terminal emptyName .silent }

/-- The symbol that reads a token and those after it. -/
def rowSymbol (token : String) : List String → Draft → SymbolId × Draft
  | [] => tokenReader token
  | next :: rest =>
    madeOnce ("<seq:" ++ String.intercalate " " (token :: next :: rest) ++ ">") fun id d =>
      let (first, d) := d.tokenReader token
      let (second, d) := rowSymbol next rest d
      d.appendRule id { expansion := .sequence first (some second) .verbatim }

/-- What a terminal shows once it is split: what the whole of it matched. -/
def wholeText (term : String) : DisplayText → DisplayText
  | .verbatim => .replace term
  | text => text

/-- A rule in the form for single tokens, if it is not in this form already. -/
def tokenizeRule? (d : Draft) (rule : Rule) : Option (Rule × Draft) :=
  match rule.expansion with
  | .terminal term text =>
    match Text.wordsOf term with
    | [] =>
      let (empty, d) := d.nothingReader
      some ({ rule with expansion := .unary empty false, insertionCost := none }, d)
    | [_] => none
    | token :: next :: rest =>
      let (first, d) := d.tokenReader token
      let (second, d) := d.rowSymbol next rest
      some ({ rule with expansion := .sequence first (some second) (wholeText term text) }, d)
  | _ => none

/-- The rules in the form for single tokens, how many of them were changed, and the draft with
the symbols made for them. -/
def tokenizeRules (d : Draft) : List Rule → List Rule × Nat × Draft
  | [] => ([], 0, d)
  | rule :: rules =>
    match d.tokenizeRule? rule with
    | some (rule, d) =>
      let (rules, count, d) := tokenizeRules d rules
      (rule :: rules, count + 1, d)
    | none =>
      let (rules, count, d) := tokenizeRules d rules
      (rule :: rules, count, d)

/-- Brings the rules of one symbol into this form. -/
def tokenizeSymbol (state : Nat × Draft) (id : SymbolId) : Nat × Draft :=
  let (rules, count, d) := state.2.tokenizeRules (state.2.rules id)
  (state.1 + count, d.modifySymbol id fun s => { s with rules := rules })

/-- Splits every terminal that is not one token, and returns how many there were. -/
def tokenize (d : Draft) : Nat × Draft :=
  d.liveSymbols.foldl tokenizeSymbol (0, d)

end Draft

end QueryGrammar
