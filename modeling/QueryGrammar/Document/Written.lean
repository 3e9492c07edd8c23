import QueryGrammar.Digest.Sha256
import QueryGrammar.Document.Basic
import QueryGrammar.Rule.Written
/-!
The written form of a document and the digest of its content. Members stand in a fixed order;
parts that are absent or empty are left out; rules are sorted by their compact form, which covers
all their parts.
-/
namespace QueryGrammar

namespace NamedNode

mutual

def toJson : NamedNode → Json
  | mk semantic children =>
    .record (("semantic", .text semantic) :: Json.listMember "children" (toJsonList children))

def toJsonList : List NamedNode → List Json
  | [] => []
  | n :: ns => toJson n :: toJsonList ns

end

end NamedNode

namespace SemanticTraits

def toJson (s : SemanticTraits) : Json :=
  .record
    [("minParams", .nat s.minParams.toNat), ("maxParams", .nat s.maxParams.toNat),
      ("cost", .float s.cost), ("isArg", .bool s.isArg),
      ("forbidsMultiple", .bool s.forbidsMultiple)]

end SemanticTraits

namespace NamedRhs

def toJson : NamedRhs → Json
  | symbols names => .record [("symbols", .texts names)]
  | terminal term => .record [("terminal", .text term)]
  | termSequence names => .record [("termSequence", .texts names)]
  | placeholder category => .record [("placeholder", .text category)]

end NamedRhs

namespace NamedAttachment

def toJson : NamedAttachment → Json
  | fixed nodes => .record [("fixed", .array (NamedNode.toJsonList nodes))]
  | deferred functions => .record [("deferred", .texts functions)]

end NamedAttachment

namespace NamedInsertion

def toJson (i : NamedInsertion) : Json :=
  .record
    ([("cost", .float i.cost), ("position", .text i.position.written)] ++
      Json.listMember "text" (i.text.map Segment.toJson) ++
      Json.optionalMember "semantic" (i.semantic.map fun ns => .array (NamedNode.toJsonList ns)) ++
      Json.optionalMember "tree" (i.tree.map Provenance.toJson))

end NamedInsertion

namespace NamedEdit

def toJson : NamedEdit → Json
  | insertion i => .record [("insertion", i.toJson)]
  | transposition cost => .record [("transposition", .record [("cost", .float cost)])]

end NamedEdit

namespace NamedRule

def toJson (rule : NamedRule) : Json :=
  .record
    (("rhs", rule.rhs.toJson) ::
      Json.optionalMember "text" (rule.text.map DisplayText.toJson) ++
      Json.optionalMember "semantic" (rule.semantic.map NamedAttachment.toJson) ++
      (if rule.features.isEmpty then [] else [("features", rule.features.toJson)]) ++
      Json.optionalMember "insertionCost" (rule.insertionCost.map Json.float) ++
      Json.optionalMember "transpositionCost" (rule.transpositionCost.map Json.float) ++
      Json.listMember "noInsertionIndexes"
        (rule.noInsertionIndexes.map fun i => Json.nat i.toNat) ++
      Json.optionalMember "edit" (rule.edit.map NamedEdit.toJson))

/-- The text that rules are sorted by. -/
def sortKey (rule : NamedRule) : String := rule.toJson.toCompact

/-- The rules in ascending order of their texts, each text once. -/
def canonical (rules : List NamedRule) : List NamedRule := Keyed.distinct sortKey rules

end NamedRule

namespace Document

/-- A map as an object. -/
def mapJson {α : Type} (value : α → Json) (m : SortedMap α) : Json :=
  .record (m.entries.map fun e => (e.1, value e.2))

/-- The members that the digest covers. -/
def contentMembers (g : Document) : List (String × Json) :=
  [("ruleSets", mapJson (fun rules => .array (rules.map NamedRule.toJson)) g.ruleSets),
    ("semantics", mapJson SemanticTraits.toJson g.semantics),
    ("entityCategories", mapJson Json.texts g.entityCategories)]

def toJson (g : Document) : Json :=
  .record
    ([("schema", .nat g.schema.toNat), ("grammarKind", .text g.grammarKind),
        ("startSymbol", .text g.startSymbol), ("digest", .text g.digest)] ++ g.contentMembers)

/-- The text whose digest a document carries. -/
def content (g : Document) : String := (Json.record g.contentMembers).toCompact

/-- The digest of the content as it is. -/
def contentDigest (g : Document) : String := Sha256.ofText g.content

def toPretty (g : Document) : String := g.toJson.toPretty

end Document

end QueryGrammar
