import QueryGrammar.Decimal.Shortest
/-!
What can go wrong while a grammar is built, finished, written or read: one cause per
constructor, and the wording of all of them in `BuildError.message`.
-/
namespace QueryGrammar

/-- Why a name is refused. -/
inductive NameFlaw where
  | forbiddenCharacter
  | noParts
  | reservedToken
  deriving DecidableEq

namespace NameFlaw

def message : NameFlaw → String
  | forbiddenCharacter =>
    "must be non-empty and free of whitespace, brackets, parentheses and commas"
  | noParts => "a symbol name needs at least one part"
  | reservedToken => "terms may not start with `<`"

end NameFlaw

/-- Why the bounds on the number of arguments are refused. -/
inductive BoundsFlaw where
  | argumentWithParameters
  | functionWithoutParameters
  | minimumAboveMaximum
  deriving DecidableEq

namespace BoundsFlaw

def message : BoundsFlaw → String
  | argumentWithParameters => "arguments take no parameters"
  | functionWithoutParameters => "functions take at least one parameter"
  | minimumAboveMaximum => "minimum exceeds maximum"

end BoundsFlaw

/-- How many symbols a right-hand side may have. -/
inductive RhsLength where
  | oneOrTwo
  | exactlyTwo
  deriving DecidableEq

namespace RhsLength

def message : RhsLength → String
  | oneOrTwo => "1 or 2"
  | exactlyTwo => "exactly 2"

end RhsLength

/-- What a cost was given for. -/
inductive CostOwner where
  | semantic (name : String)
  | rule (symbol : String)
  | term (text symbol : String)
  deriving DecidableEq

namespace CostOwner

def message : CostOwner → String
  | semantic name => s!"semantic {name}"
  | rule symbol => s!"rule of {symbol}"
  | term text symbol => s!"term `{text}` of {symbol}"

end CostOwner

/-- What a semantic was attached to in vain. -/
inductive AttachmentFlaw where
  | emptyChain
  | deferredOnTerminal (symbol : String)
  deriving DecidableEq

namespace AttachmentFlaw

def message : AttachmentFlaw → String
  | emptyChain => "deferred semantic: empty function chain"
  | deferredOnTerminal symbol =>
    s!"{symbol}: a deferred function on a literal terminal has no arguments to consume"

end AttachmentFlaw

/-- Why a file cannot be read or written. -/
inductive FileFlaw where
  | missing
  | isDirectory
  | notDirectory
  | alreadyThere
  | nameTooLong
  | invalidText
  | other (text : String)
  deriving DecidableEq

namespace FileFlaw

def message : FileFlaw → String
  | missing => "No such file or directory (os error 2)"
  | isDirectory => "Is a directory (os error 21)"
  | notDirectory => "Not a directory (os error 20)"
  | alreadyThere => "File exists (os error 17)"
  | nameTooLong => "File name too long (os error 36)"
  | invalidText => "stream did not contain valid UTF-8"
  | other text => text

end FileFlaw

inductive BuildError where
  | duplicateSymbol (name : String)
  | duplicateSemantic (name : String)
  | duplicateEntityCategory (name : String)
  | invalidName (name : String) (flaw : NameFlaw)
  | unknownSymbol (reference : String)
  | unknownSemantic (reference : String)
  | unknownEntityCategory (reference : String)
  | rhsLength (symbol : String) (length : Nat) (expected : RhsLength)
  | invalidBounds (name : String) (minimum maximum : UInt64) (flaw : BoundsFlaw)
  | argumentCount (semantic : String) (minimum maximum : UInt64) (count : Nat)
  | forbiddenMultiple (semantic : String)
  | argumentApplied (semantic : String)
  | invalidCost (owner : CostOwner) (cost : Float)
  | transpositionOnNonBinary (symbol : String)
  | insertionOnNonLexical (symbol : String)
  | nonLexicalRule (symbol : String)
  | noInsertionIndex (symbol : String) (index length : Nat)
  | invalidAttachment (flaw : AttachmentFlaw)
  | notATermSequence (symbol target : String)
  | emptyTermSequence (symbol : String)
  | emptyGrammar (start : String)
  | unusedComponents (names : List String)
  | options (detail : String)
  | document (detail : String)
  | file (place : String) (flaw : FileFlaw)

namespace BuildError

def message : BuildError → String
  | duplicateSymbol name => s!"duplicate symbol name: {name}"
  | duplicateSemantic name => s!"duplicate semantic name: {name}"
  | duplicateEntityCategory name => s!"duplicate entity category: {name}"
  | invalidName name flaw => s!"invalid name `{name}`: {flaw.message}"
  | unknownSymbol reference => s!"unknown symbol reference: {reference}"
  | unknownSemantic reference => s!"unknown semantic reference: {reference}"
  | unknownEntityCategory reference => s!"unknown entity category: {reference}"
  | rhsLength symbol length expected =>
    s!"rule on {symbol} has {length} right-hand-side symbols; expected {expected.message}"
  | invalidBounds name minimum maximum flaw =>
    s!"semantic {name} has invalid arity bounds {minimum}..={maximum}: {flaw.message}"
  | argumentCount semantic minimum maximum count =>
    s!"semantic {semantic} takes {minimum}..={maximum} arguments, got {count}"
  | forbiddenMultiple semantic =>
    s!"semantic {semantic} may appear only once at the same composition level"
  | argumentApplied semantic =>
    s!"semantic {semantic} is an argument and cannot take children"
  | invalidCost owner cost => s!"invalid cost {Decimal.plain cost} on {owner.message}"
  | transpositionOnNonBinary symbol => s!"transposition cost on non-binary rule of {symbol}"
  | insertionOnNonLexical symbol => s!"insertion cost on non-lexical rule of {symbol}"
  | nonLexicalRule symbol =>
    s!"term sequence {symbol} accepts only terminal and term-sequence rules"
  | noInsertionIndex symbol index length =>
    s!"no-insertion index {index} out of range for rule of {symbol} with {length} positions"
  | invalidAttachment flaw => s!"invalid semantic attachment on {flaw.message}"
  | notATermSequence symbol target =>
    s!"{symbol} references {target}, which is not a term sequence"
  | emptyTermSequence symbol => s!"term sequence {symbol} has no accepted terms"
  | emptyGrammar start => s!"start symbol {start} derives no complete expansion"
  | unusedComponents names =>
    "unused grammar components: " ++ String.intercalate ", " names
  | options detail => s!"configuration error: {detail}"
  | document detail => s!"serialization error: {detail}"
  | file place flaw => s!"I/O error: {place}: {flaw.message}"

end BuildError

/-- The outcome of a call that may be refused. -/
abbrev Outcome := Except BuildError

end QueryGrammar
