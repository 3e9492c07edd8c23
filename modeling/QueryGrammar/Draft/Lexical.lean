import QueryGrammar.Change
import QueryGrammar.Draft.Registration
/-!
Lexical symbols: words, verbs, pronouns and phrases. Each is checked as a whole, then registered,
and then given its rules one after the other, each of which is checked again as any rule is. A form
that occurs twice keeps its first occurrence only; substituted forms are understood but shown as the
canonical text, and are never suggested.
-/
namespace QueryGrammar

/-- A surface form, with a cost if it may be suggested for an omitted word. -/
structure AcceptedPhrase where
  term : String
  insertionCost : Option Float := none

structure TermSequence where
  name : String
  accepted : List AcceptedPhrase
  substituted : List String := []
  semantic : Option Forest := none

/-- The forms of a verb. -/
structure Verb where
  name : String
  oneSg : List String
  threeSg : List String
  pl : List String
  past : List String
  substituted : List String := []
  insertionCost : Option Float := none

/-- A verb with one form each, its base form serving the plural too. -/
def Verb.regular (name base threeSg past : String) : Verb where
  name := name
  oneSg := [base]
  threeSg := [threeSg]
  pl := [base]
  past := [past]

/-- The forms of a pronoun. -/
structure Pronoun where
  name : String
  nom : List String
  obj : List String
  substituted : List String := []
  insertionCost : Option Float := none
  semantic : Option Forest := none

/-- One form of a lexical symbol with what it shows. -/
structure LexicalEntry where
  term : String
  text : DisplayText
  features : Features := {}
  insertionCost : Option Float := none
  accepted : Bool

namespace LexicalEntry

def substituting (terms : List String) (text : DisplayText) : List LexicalEntry :=
  terms.map fun term => { term := term, text := text, accepted := false }

/-- The entries of the groups of accepted forms, each form with the features of its group. The
first entry of all carries the insertion cost. -/
def ofForms (text : DisplayText) (insertionCost : Option Float)
    (groups : List (List String × Features)) : List LexicalEntry :=
  (groups.flatMap fun (terms, features) =>
    terms.map fun term =>
      ({ term := term, text := text, features := features, accepted := true } : LexicalEntry))
    |>.modifyHead fun entry => { entry with insertionCost := insertionCost }

/-- The entries with normalized terms, refusing reserved ones. -/
def normalized (entries : List LexicalEntry) : Outcome (List LexicalEntry) :=
  entries.mapM fun entry => do
    return { entry with term := ← Name.checkedTerm entry.term }

/-- The entries whose term is not empty and does not occur before; `seen` holds terms met so far. -/
def firstOccurrences (seen : List String) : List LexicalEntry → List LexicalEntry
  | [] => []
  | entry :: entries =>
    if entry.term.isEmpty || seen.contains entry.term then firstOccurrences seen entries
    else entry :: firstOccurrences (entry.term :: seen) entries

/-- Refuses the first insertion cost that is no cost. -/
def checkCost (symbol : String) (entry : LexicalEntry) : Outcome Unit :=
  entry.insertionCost.forM fun cost =>
    if Vocabulary.isCost cost then .ok ()
    else .error (.invalidCost (.term entry.term symbol) cost)

/-- The rule that an entry proposes. -/
def toProposal (semantic : Option Forest) (entry : LexicalEntry) : Proposal where
  rhs := .terminal entry.term entry.text
  semantic := semantic.map .fixed
  features := entry.features
  insertionCost := entry.insertionCost

end LexicalEntry

/-! ### The entries of each kind of lexical symbol -/

/-- The accepted terms show as they are, the substituted ones as the first accepted term. -/
def TermSequence.entries (t : TermSequence) : List LexicalEntry :=
  let canonical := (t.accepted.head?.map fun a => Name.normalizeTerm a.term).getD ""
  let accepted := t.accepted.map fun a =>
    ({ term := a.term, text := .verbatim, insertionCost := a.insertionCost, accepted := true } :
      LexicalEntry)
  accepted ++ LexicalEntry.substituting t.substituted (.replace canonical)

/-- A word. Its first accepted term is the canonical one and carries the insertion cost. -/
def TermSequence.word (name : String) (accepted substituted : List String)
    (insertionCost : Option Float) : TermSequence where
  name := name
  accepted := (accepted.map fun term => ({ term := term } : AcceptedPhrase)).modifyHead
    fun a => { a with insertionCost := insertionCost }
  substituted := substituted

/-- The first of several forms, normalized. -/
def leadingForm (forms : List String) : Option String :=
  forms.head?.map Name.normalizeTerm

/-- Every entry of a verb shows the whole table of forms and has the features of the form it
matches. -/
def Verb.entries (v : Verb) : List LexicalEntry :=
  let table : DisplayText := .inflected
    { oneSg := leadingForm v.oneSg
      threeSg := leadingForm v.threeSg
      pl := leadingForm v.pl
      past := leadingForm v.past }
  let forms := LexicalEntry.ofForms table v.insertionCost
    [(v.oneSg, { personNumber := some .oneSg, tense := some .present }),
      (v.threeSg, { personNumber := some .threeSg, tense := some .present }),
      (v.pl, { personNumber := some .pl, tense := some .present }),
      (v.past, { tense := some .past })]
  forms ++ LexicalEntry.substituting v.substituted table

/-- The entries of a pronoun, in the nominative and in the objective case. -/
def Pronoun.entries (p : Pronoun) : List LexicalEntry :=
  let table : DisplayText := .inflected { nom := leadingForm p.nom, obj := leadingForm p.obj }
  let forms := LexicalEntry.ofForms table p.insertionCost
    [(p.nom, { case := some .nom }), (p.obj, { case := some .obj })]
  forms ++ LexicalEntry.substituting p.substituted table

namespace Draft

/-! ### Registration step by step -/

/-- The entries that a lexical symbol of this name would have rules for, once all is checked. -/
def checkLexical (d : Draft) (name : String) (entries : List LexicalEntry)
    (semantic : Option Forest) : Outcome (List LexicalEntry) := do
  let symbol ← Name.symbol [name]
  d.checkFree symbol
  let kept := LexicalEntry.firstOccurrences [] (← LexicalEntry.normalized entries)
  unless kept.any (·.accepted) do throw (.emptyTermSequence symbol)
  kept.forM (LexicalEntry.checkCost symbol)
  d.checkSemantics (Node.forestIds (semantic.getD []))
  return kept

/-- Adds rules to a symbol, each in a call of its own. -/
def addRules (id : SymbolId) (proposals : List Proposal) : Change Draft Unit :=
  proposals.forM fun p => Change.call fun d => return ((), ← d.addRule id p)

/-- A term sequence with one rule for each distinct form of its entries. -/
def registerLexical (name : String) (entries : List LexicalEntry) (semantic : Option Forest) :
    Change Draft SymbolId := do
  let kept ← Change.ofOutcome ((← get).checkLexical name entries semantic)
  let id ← Change.call (·.newSymbolOf true [name])
  addRules id (kept.map (LexicalEntry.toProposal semantic))
  return id

def registerTermSequence (t : TermSequence) : Change Draft SymbolId :=
  registerLexical t.name t.entries t.semantic

def registerWord (name : String) (accepted substituted : List String)
    (insertionCost : Option Float) : Change Draft SymbolId :=
  registerTermSequence (.word name accepted substituted insertionCost)

def registerVerb (v : Verb) : Change Draft SymbolId :=
  registerLexical v.name v.entries none

def registerPronoun (p : Pronoun) : Change Draft SymbolId :=
  registerLexical p.name p.entries p.semantic

/-- What is checked before a phrase is registered. -/
def checkPhrase (d : Draft) (name : String) (parts : List SymbolId) (semantic : Option Forest) :
    Outcome Unit := do
  let symbol ← Name.symbol [name]
  d.checkFree symbol
  parts.forM (d.checkTermSequence symbol)
  if parts.isEmpty || 2 < parts.length then throw (.rhsLength symbol parts.length .oneOrTwo)
  d.checkSemantics (Node.forestIds (semantic.getD []))

/-- A term sequence that reads one or two others in a row. -/
def registerPhrase (name : String) (parts : List SymbolId) (text : DisplayText)
    (semantic : Option Forest) : Change Draft SymbolId := do
  Change.ofOutcome ((← get).checkPhrase name parts semantic)
  let id ← Change.call (·.newSymbolOf true [name])
  addRules id [{ rhs := .sequence parts text, semantic := semantic.map .fixed }]
  return id

/-! ### Registration as one call -/

def addLexical (d : Draft) (name : String) (entries : List LexicalEntry)
    (semantic : Option Forest) : Outcome (SymbolId × Draft) :=
  Change.accepted (registerLexical name entries semantic) d

def newTermSequence (d : Draft) (t : TermSequence) : Outcome (SymbolId × Draft) :=
  Change.accepted (registerTermSequence t) d

def addWord (d : Draft) (name : String) (accepted substituted : List String)
    (insertionCost : Option Float) : Outcome (SymbolId × Draft) :=
  Change.accepted (registerWord name accepted substituted insertionCost) d

def addVerb (d : Draft) (v : Verb) : Outcome (SymbolId × Draft) :=
  Change.accepted (registerVerb v) d

def addPronoun (d : Draft) (p : Pronoun) : Outcome (SymbolId × Draft) :=
  Change.accepted (registerPronoun p) d

def newPhrase (d : Draft) (name : String) (parts : List SymbolId) (text : DisplayText)
    (semantic : Option Forest) : Outcome (SymbolId × Draft) :=
  Change.accepted (registerPhrase name parts text semantic) d

end Draft

end QueryGrammar
