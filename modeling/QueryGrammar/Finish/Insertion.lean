import QueryGrammar.Draft.Basic
import QueryGrammar.Rule.Written
/-!
The cheapest way to supply a symbol that the input leaves out. A symbol can be supplied by a lexical
rule with an insertion cost, by a unary rule over a symbol that can, or by a binary rule over two,
neither position excluded. Equal costs go to the smaller derivation and then to the smaller text, so
the order of registration does not matter.
-/
namespace QueryGrammar

/-- A way to supply a symbol. -/
structure Candidate where
  cost : Float
  text : List Segment
  semantic : Option Forest
  tree : Provenance
  /-- How many nodes the derivation has. -/
  size : Nat
  /-- Text, semantics and derivation as one text, for a total order. -/
  key : String

namespace Candidate

/-- Lower cost, then the smaller derivation, then the smaller key. -/
def isBetter (a b : Candidate) : Bool :=
  a.cost < b.cost ||
    (a.cost == b.cost && (a.size < b.size || (a.size == b.size && a.key < b.key)))

/-- The text, the semantics and the derivation of a candidate as one text. -/
def keyOf (v : Vocabulary) (text : List Segment) (semantic : Option Forest)
    (tree : Provenance) : String :=
  (Json.array (text.map Segment.toJson)).toCompact ++ "|" ++
    (semantic.map v.render).getD "" ++ "|" ++ tree.toJson.toCompact

end Candidate

/-- The cheapest candidate found for each symbol. -/
abbrev Candidates := List (SymbolId × Candidate)

namespace Candidates

/-- Sets the candidate of a symbol. -/
def put (id : SymbolId) (c : Candidate) : Candidates → Candidates
  | [] => [(id, c)]
  | (other, old) :: rest =>
    if other = id then (id, c) :: rest else (other, old) :: put id c rest

end Candidates

namespace Draft

/-- What the first rule of a symbol expands it to. -/
def firstExpansion (d : Draft) (id : SymbolId) : Option Expansion :=
  (d.rules id).head?.map Rule.expansion

/-- What a symbol shows by its first rule if that is lexical. The state holds the symbols that are
being expanded: a symbol enters it before its parts do and leaves it after them, and one met again
in between shows nothing. Each level adds a symbol to the state, so `depth` need not exceed the
number of symbols. -/
def display (d : Draft) : Nat → SymbolId → StateM (List SymbolId) (List Segment)
  | 0, _ => return []
  | depth + 1, id => do
    if (← get).contains id then return []
    modify (id :: ·)
    let shown ← match d.firstExpansion id with
      | some (.terminal term text) => pure (text.segments [.literal term])
      | some (.sequence first second .verbatim) =>
        List.flatten <$> (first :: second.toList).mapM (d.display depth)
      | some (.sequence _ _ text) => pure (text.segments [])
      | _ => pure []
    modify (·.erase id)
    return shown

/-- What a symbol shows while the symbols of `path` are being expanded. -/
def shownText (d : Draft) (depth : Nat) (path : List SymbolId) (id : SymbolId) : List Segment :=
  ((d.display depth id).run path).1

/-- The semantics of a phrase whose parts have the semantics `inner`. -/
def attachedOver (v : Vocabulary) (attachment : Option Attachment) (inner : Option Forest) :
    Outcome (Option Forest) :=
  match attachment, inner with
  | none, inner => .ok inner
  | some (.fixed forest), none => .ok (some forest)
  | some (.fixed forest), some inner => some <$> v.merge forest inner
  | some (.deferred chain), inner => some <$> v.applyChain chain (inner.getD [])

/-- The union of the semantics of the parts that have any. -/
def mergeAll (v : Vocabulary) : List (Option Forest) → Option Forest → Outcome (Option Forest)
  | [], acc => .ok acc
  | none :: rest, acc => mergeAll v rest acc
  | some forest :: rest, none => mergeAll v rest (some forest)
  | some forest :: rest, some acc => do mergeAll v rest (some (← v.merge acc forest))

/-- A candidate that a lexical rule gives. -/
def leafCandidate (v : Vocabulary) (symbol : String) (attachment : Option Attachment)
    (cost : Float) (text : List Segment) : Outcome Candidate := do
  let semantic ← attachedOver v attachment none
  let tree := Provenance.mk symbol text []
  return { cost, text, semantic, tree, size := 1, key := Candidate.keyOf v text semantic tree }

/-- The candidate that a rule gives over candidates for all its parts. -/
def composedCandidate (v : Vocabulary) (symbol : String) (attachment : Option Attachment)
    (parts : List Candidate) : Outcome Candidate := do
  let inner ← mergeAll v (parts.map (·.semantic)) none
  let semantic ← attachedOver v attachment inner
  let text := parts.flatMap (·.text)
  let tree := Provenance.mk symbol [] (parts.map (·.tree))
  return {
    cost := parts.foldl (fun sum c => sum + c.cost) (-0.0)
    text
    semantic
    tree
    size := parts.foldl (fun sum c => sum + c.size) 1
    key := Candidate.keyOf v text semantic tree }

/-- The candidate that a rule of a symbol gives over those in `best`. A rule whose semantics do not
compose gives none. -/
def candidateBy (d : Draft) (best : Candidates) (id : SymbolId) (rule : Rule) :
    Option Candidate :=
  let symbol := d.symbolName id
  match rule.expansion with
  | .terminal term text => do
    let cost ← rule.insertionCost
    (leafCandidate d.vocabulary symbol rule.semantic cost
      (text.segments [.literal term])).toOption
  | .sequence first second text => do
    let cost ← rule.insertionCost
    let shown := (first :: second.toList).flatMap (d.shownText (d.symbols.length + 1) [])
    (leafCandidate d.vocabulary symbol rule.semantic cost (text.segments shown)).toOption
  | .placeholder _ => none
  | .unary part noInsertion =>
    if noInsertion then none
    else do
      let inner ← best.lookup part
      (composedCandidate d.vocabulary symbol rule.semantic [inner]).toOption
  | .binary first second _ excluded =>
    if excluded.any then none
    else do
      let a ← best.lookup first
      let b ← best.lookup second
      (composedCandidate d.vocabulary symbol rule.semantic [a, b]).toOption

/-- Tries a rule of a symbol; the flag tells whether anything has changed. -/
def improveBy (d : Draft) (id : SymbolId) (state : Candidates × Bool) (rule : Rule) :
    Candidates × Bool :=
  if rule.isEdit then state
  else match d.candidateBy state.1 id rule with
    | none => state
    | some c =>
      if (state.1.lookup id).all c.isBetter then (state.1.put id c, true) else state

/-- Tries all rules of all symbols in order. -/
def improve (d : Draft) (best : Candidates) : Candidates × Bool :=
  d.liveSymbols.foldl (fun state id => (d.rules id).foldl (d.improveBy id) state) (best, false)

/-- Improves until nothing changes, in so many passes at most. -/
def improveRounds (d : Draft) : Nat → Candidates → Candidates
  | 0, best => best
  | rounds + 1, best =>
    let (next, changed) := d.improve best
    if changed then improveRounds d rounds next else next

/-- The cheapest candidate of every symbol that can be supplied. The best derivations repeat no
symbol on a path, so their height bounds the number of passes. -/
def candidates (d : Draft) : Candidates :=
  d.improveRounds (d.liveSymbols.length + 1) []

end Draft

end QueryGrammar
