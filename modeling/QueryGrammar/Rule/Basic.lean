import QueryGrammar.Semantic.Basic
/-!
Rules: the ways a symbol expands. Each kind of expansion carries only what means something for it:
two parts may be exchanged at a cost, parts may be closed to insertion, and only lexical rules have
a text to show.
-/
namespace QueryGrammar

/-- The number of a symbol in the order of registration. -/
structure SymbolId where
  index : Nat
  deriving DecidableEq

/-- The number of an entity category in the order of registration. -/
structure EntityCategoryId where
  index : Nat
  deriving DecidableEq

inductive PersonNumber where
  | oneSg
  | threeSg
  | pl
  deriving DecidableEq

inductive GrammaticalCase where
  | nom
  | obj
  deriving DecidableEq

inductive Tense where
  | present
  | past
  deriving DecidableEq

/-- Grammatical features. They are kept and handed on, never interpreted. -/
structure Features where
  personNumber : Option PersonNumber := none
  case : Option GrammaticalCase := none
  tense : Option Tense := none
  deriving DecidableEq

namespace Features

def isEmpty (f : Features) : Bool :=
  f.personNumber.isNone && f.case.isNone && f.tense.isNone

end Features

/-- The inflected forms of one word. -/
structure Inflections where
  oneSg : Option String := none
  threeSg : Option String := none
  pl : Option String := none
  past : Option String := none
  nom : Option String := none
  obj : Option String := none
  deriving DecidableEq

/-- What a lexical rule shows: the input it matched, another text, a form of a table that fits the
surroundings, or nothing. -/
inductive DisplayText where
  | verbatim
  | replace (text : String)
  | inflected (forms : Inflections)
  | silent
  deriving DecidableEq

/-- A piece of a text that is suggested. -/
inductive Segment where
  | literal (text : String)
  | inflected (forms : Inflections)
  deriving DecidableEq

/-- The segments a lexical rule shows, where `matched` gives those of the input it matched. -/
def DisplayText.segments (matched : List Segment) : DisplayText → List Segment
  | verbatim => matched
  | replace text => [.literal text]
  | inflected forms => [.inflected forms]
  | silent => []

/-- Where the omitted part stood, seen from the part that remains. -/
inductive Side where
  | before
  | after
  deriving DecidableEq

/-- The derivation of a suggested text: its symbols by name, and segments at the leaves. -/
inductive Provenance where
  | mk (symbol : String) (text : List Segment) (children : List Provenance)

namespace Provenance

mutual

def decEq : (a b : Provenance) → Decidable (a = b)
  | mk s x cs, mk t y ds =>
    if h : s = t ∧ x = y then
      match decEqList cs ds with
      | isTrue hc => isTrue (by rw [h.1, h.2, hc])
      | isFalse hc => isFalse fun e => hc (Provenance.mk.inj e).2.2
    else isFalse fun e => h ⟨(Provenance.mk.inj e).1, (Provenance.mk.inj e).2.1⟩

def decEqList : (a b : List Provenance) → Decidable (a = b)
  | [], [] => isTrue rfl
  | [], _ :: _ => isFalse nofun
  | _ :: _, [] => isFalse nofun
  | x :: xs, y :: ys =>
    match decEq x y, decEqList xs ys with
    | isTrue hx, isTrue hxs => isTrue (by rw [hx, hxs])
    | isFalse hx, _ => isFalse fun h => hx (List.cons.inj h).1
    | _, isFalse hxs => isFalse fun h => hxs (List.cons.inj h).2

end

instance : DecidableEq Provenance := decEq

def symbol : Provenance → String
  | mk s _ _ => s

def text : Provenance → List Segment
  | mk _ t _ => t

def children : Provenance → List Provenance
  | mk _ _ cs => cs

end Provenance

/-- A part left out and supplied: at what cost, on which side, as what text and semantics. -/
structure Insertion where
  cost : Float
  position : Side
  text : List Segment
  semantic : Option Forest
  tree : Option Provenance
  deriving BEq

/-- How a rule made while finishing departs from the one it comes from. -/
inductive Edit where
  | insertion (insertion : Insertion)
  | transposition (cost : Float)
  deriving BEq

/-- The parts of a binary rule that no insertion may supply. -/
structure Excluded where
  first : Bool := false
  second : Bool := false
  deriving DecidableEq

namespace Excluded

def any (e : Excluded) : Bool := e.first || e.second

def swap (e : Excluded) : Excluded := ⟨e.second, e.first⟩

/-- The excluded positions in ascending order. -/
def indexes (e : Excluded) : List Nat :=
  (if e.first then [0] else []) ++ if e.second then [1] else []

end Excluded

/-- The right-hand side of a rule. A sequence reads one or two lexical symbols as a single unit. -/
inductive Expansion where
  | unary (part : SymbolId) (noInsertion : Bool)
  | binary (first second : SymbolId) (transpositionCost : Option Float) (excluded : Excluded)
  | terminal (term : String) (text : DisplayText)
  | sequence (first : SymbolId) (second : Option SymbolId) (text : DisplayText)
  | placeholder (category : EntityCategoryId)
  deriving BEq

namespace Expansion

/-- The symbols on the right-hand side. -/
def parts : Expansion → List SymbolId
  | unary part _ => [part]
  | binary first second _ _ => [first, second]
  | sequence first second _ => first :: second.toList
  | terminal _ _ => []
  | placeholder _ => []

def isLexical : Expansion → Bool
  | terminal _ _ => true
  | sequence _ _ _ => true
  | _ => false

end Expansion

/-- A way a symbol expands. An insertion cost means that its text may be suggested. -/
structure Rule where
  expansion : Expansion
  semantic : Option Attachment := none
  features : Features := {}
  insertionCost : Option Float := none
  edit : Option Edit := none
  deriving BEq

namespace Rule

def isEdit (r : Rule) : Bool := r.edit.isSome

end Rule

/-- The right-hand side of a rule as a content module writes it. -/
inductive Rhs where
  | symbols (ids : List SymbolId)
  | named (names : List String)
  | terminal (term : String) (text : DisplayText)
  | sequence (ids : List SymbolId) (text : DisplayText)
  | placeholder (category : EntityCategoryId)

/-- A rule as a content module writes it, before any check. -/
structure Proposal where
  rhs : Rhs
  semantic : Option Attachment := none
  features : Features := {}
  insertionCost : Option Float := none
  transpositionCost : Option Float := none
  noInsertion : List Nat := []

namespace Proposal

def unary (part : SymbolId) : Proposal := { rhs := .symbols [part] }

def binary (first second : SymbolId) : Proposal := { rhs := .symbols [first, second] }

def terminal (term : String) (text : DisplayText) : Proposal := { rhs := .terminal term text }

def fixed (p : Proposal) (forest : Forest) : Proposal :=
  { p with semantic := some (.fixed forest) }

def deferred (p : Proposal) (chain : Chain) : Proposal :=
  { p with semantic := some (.deferred chain) }

/-- Closes positions of the right-hand side to insertion. -/
def closing (p : Proposal) (indexes : List Nat) : Proposal :=
  { p with noInsertion := p.noInsertion ++ indexes }

end Proposal

end QueryGrammar
