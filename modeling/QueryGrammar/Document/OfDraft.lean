import QueryGrammar.Document.Written
import QueryGrammar.Draft.Basic
/-!
The document of a draft: its live symbols, semantics and entity categories by name.
-/
namespace QueryGrammar

namespace Vocabulary

mutual

def namedNode (v : Vocabulary) : Node → NamedNode
  | .mk s children => .mk (v.name s) (namedNodes v children)

/-- Siblings by name. -/
def namedNodes (v : Vocabulary) : List Node → List NamedNode
  | [] => []
  | n :: ns => namedNode v n :: namedNodes v ns

end

def namedAttachment (v : Vocabulary) : Attachment → NamedAttachment
  | .fixed forest => .fixed (v.namedNodes forest)
  | .deferred chain => .deferred (chain.map v.name)

def namedEdit (v : Vocabulary) : Edit → NamedEdit
  | .insertion i =>
    .insertion
      { cost := i.cost
        position := i.position
        text := i.text
        semantic := i.semantic.map v.namedNodes
        tree := i.tree }
  | .transposition cost => .transposition cost

end Vocabulary

namespace SemanticTraits

def ofDefinition (d : Semantic) : SemanticTraits :=
  ⟨d.minParams, d.maxParams, d.cost, d.isArg, d.forbidsMultiple⟩

end SemanticTraits

namespace Draft

/-- The text a rule carries: none where the matched input is shown. -/
def writtenText : DisplayText → Option DisplayText
  | .verbatim => none
  | text => some text

/-- A rule with the parts that depend on the kind of the expansion. -/
def namedExpansion (d : Draft) : Expansion → NamedRule
  | .unary part noInsertion =>
    { rhs := .symbols [d.symbolName part]
      noInsertionIndexes := if noInsertion then [0] else [] }
  | .binary first second cost excluded =>
    { rhs := .symbols [d.symbolName first, d.symbolName second]
      transpositionCost := cost
      noInsertionIndexes := excluded.indexes.map UInt64.ofNat }
  | .terminal term text => { rhs := .terminal term, text := writtenText text }
  | .sequence first second text =>
    { rhs := .termSequence ((first :: second.toList).map d.symbolName), text := writtenText text }
  | .placeholder category => { rhs := .placeholder (d.entityCategoryName category) }

def namedRule (d : Draft) (rule : Rule) : NamedRule :=
  { d.namedExpansion rule.expansion with
    semantic := rule.semantic.map d.vocabulary.namedAttachment
    features := rule.features
    insertionCost := rule.insertionCost
    edit := rule.edit.map d.vocabulary.namedEdit }

def ruleSets (d : Draft) : SortedMap (List NamedRule) :=
  .ofList (d.liveSymbols.map fun id =>
    (d.symbolName id, NamedRule.canonical ((d.rules id).map d.namedRule)))

def semanticTraits (d : Draft) : SortedMap SemanticTraits :=
  .ofList (d.liveSemantics.filterMap fun id =>
    (d.vocabulary.get? id).map fun s => (s.name, SemanticTraits.ofDefinition s))

def categoryInstances (d : Draft) : SortedMap (List String) :=
  .ofList (d.liveEntityCategories.filterMap fun id =>
    (d.entityCategory? id).map fun c => (d.entityCategoryName id, c.instances))

end Draft

namespace Document

/-- The document of a draft as it stands. -/
def ofDraft (d : Draft) : Document :=
  let content : Document :=
    { schema := currentSchema
      grammarKind := currentKind
      startSymbol := d.symbolName Draft.start
      digest := ""
      ruleSets := d.ruleSets
      semantics := d.semanticTraits
      entityCategories := d.categoryInstances }
  { content with digest := content.contentDigest }

end Document

end QueryGrammar
