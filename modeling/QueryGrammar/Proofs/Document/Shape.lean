import Mathlib.Logic.Relation
import QueryGrammar.Proofs.Document.Derivation
import QueryGrammar.Proofs.Finish.Candidates
/-!
What a parser may rely on in a document: every name that a row mentions is defined, everything that
is defined is used by rows that are no edits, and rows have the shapes that a parser expects.
-/
namespace QueryGrammar

namespace NamedNode

mutual

/-- The names of the semantics in a tree. -/
def names : NamedNode → List String
  | mk semantic children => semantic :: namesAll children

def namesAll : List NamedNode → List String
  | [] => []
  | n :: ns => names n ++ namesAll ns

end

end NamedNode

/-- The names of the semantics that are attached. -/
def NamedAttachment.names : NamedAttachment → List String
  | .fixed nodes => NamedNode.namesAll nodes
  | .deferred functions => functions

namespace NamedRhs

def length (rhs : NamedRhs) : Nat := rhs.parts.length

def isLexical : NamedRhs → Bool
  | terminal _ => true
  | termSequence _ => true
  | _ => false

end NamedRhs

namespace Document

variable (g : Document)

/-- The row stands in the rule set of the name. -/
def HasRow (name : String) (row : NamedRule) : Prop :=
  ∃ rows, g.ruleSets.find? name = some rows ∧ row ∈ rows

/-- A row that is no edit leads from the one symbol to the other. -/
def Leads (name part : String) : Prop :=
  ∃ row, g.HasRow name row ∧ row.edit = none ∧ part ∈ row.rhs.parts

/-- Every name that a row mentions is defined. -/
structure ClosedRow (row : NamedRule) : Prop where
  symbols : ∀ part ∈ row.rhs.parts, part ∈ g.ruleSets.keys
  placeholder : ∀ category, row.rhs = .placeholder category → category ∈ g.entityCategories.keys
  semantic : ∀ a, row.semantic = some a → ∀ name ∈ a.names, name ∈ g.semantics.keys
  tree : ∀ i tree, row.edit = some (.insertion i) → i.tree = some tree →
    ∀ name ∈ tree.names, name ∈ g.ruleSets.keys
  inserted : ∀ i nodes, row.edit = some (.insertion i) → i.semantic = some nodes →
    ∀ name ∈ NamedNode.namesAll nodes, name ∈ g.semantics.keys

/-- The shape of a row by itself. -/
structure ShapedRow (row : NamedRule) : Prop where
  symbols : ∀ names, row.rhs = .symbols names → names.length = 1 ∨ names.length = 2
  termSequence : ∀ names, row.rhs = .termSequence names → names.length = 1 ∨ names.length = 2
  terminal : ∀ term, row.rhs = .terminal term → Text.wordsOf term = [term]
  noInsertion : row.noInsertionIndexes.Pairwise (· < ·) ∧
    ∀ index ∈ row.noInsertionIndexes, index.toNat < row.rhs.length
  transposition : row.transpositionCost.isSome = true →
    (∃ first second, row.rhs = .symbols [first, second]) ∧ row.edit = none
  insertion : row.insertionCost.isSome = true → row.rhs.isLexical = true

/-- A document that is closed, holds nothing that is not used, and has rows of the right shape. -/
structure WellFormed : Prop where
  start : g.startSymbol ∈ g.ruleSets.keys
  ruleSets : ∀ name rows, g.ruleSets.find? name = some rows →
    rows ≠ [] ∧ rows.Pairwise fun a b => a.sortKey < b.sortKey
  closed : ∀ name row, g.HasRow name row → g.ClosedRow row
  shaped : ∀ name row, g.HasRow name row → ShapedRow row
  reachable : ∀ name ∈ g.ruleSets.keys, Relation.ReflTransGen g.Leads g.startSymbol name
  semantics : ∀ name ∈ g.semantics.keys, ∃ symbol row a,
    g.HasRow symbol row ∧ row.edit = none ∧ row.semantic = some a ∧ name ∈ a.names
  entityCategories : ∀ name ∈ g.entityCategories.keys, ∃ symbol row,
    g.HasRow symbol row ∧ row.edit = none ∧ row.rhs = .placeholder name

end Document

/-! ### Names of a vocabulary -/

namespace Vocabulary

variable (v : Vocabulary)

mutual

theorem names_namedNode : (n : Node) → (v.namedNode n).names = n.ids.map v.name
  | .mk s children => by
    rw [namedNode, NamedNode.names, Node.ids, List.map_cons, namesAll_namedNodes children]

theorem namesAll_namedNodes : (ns : List Node) →
    NamedNode.namesAll (v.namedNodes ns) = (Node.forestIds ns).map v.name
  | [] => rfl
  | n :: ns => by
    rw [namedNodes, NamedNode.namesAll, Node.forestIds, List.map_append, names_namedNode n,
      namesAll_namedNodes ns]

end

theorem names_namedAttachment (a : Attachment) :
    (v.namedAttachment a).names = a.ids.map v.name := by
  cases a with
  | fixed forest => exact v.namesAll_namedNodes forest
  | deferred chain => rfl

variable {v}

theorem name_of_get? {id : SemanticId} {s : Semantic} (h : v.get? id = some s) :
    v.name id = s.name := by
  rw [name, h]

/-- Registered semantics are told apart by their names. -/
theorem name_inj (hnames : (v.definitions.map (·.name)).Nodup) {id id' : SemanticId}
    (hid : id.index < v.size) (hid' : id'.index < v.size) (h : v.name id = v.name id') :
    id = id' := by
  have hget : v.get? id = some v.definitions[id.index] := List.getElem?_eq_getElem hid
  have hget' : v.get? id' = some v.definitions[id'.index] := List.getElem?_eq_getElem hid'
  rw [name_of_get? hget, name_of_get? hget'] at h
  have hlt : id.index < (v.definitions.map (·.name)).length := by simpa [size] using hid
  have hindex : id.index = id'.index := by
    refine (List.getElem?_inj hlt hnames).mp ?_
    rw [List.getElem?_map, List.getElem?_map, ← get?, ← get?, hget, hget', Option.map_some,
      Option.map_some, h]
  cases id
  cases id'
  exact congrArg SemanticId.mk hindex

end Vocabulary

namespace Draft

variable {d : Draft}

/-! ### Maps of a draft -/

theorem mem_keys_ruleSets_iff (hnames : (d.symbols.map (·.name)).Nodup) {name : String} :
    name ∈ d.ruleSets.keys ↔ ∃ X ∈ d.liveSymbols, d.symbolName X = name := by
  rw [SortedMap.mem_keys_iff]
  constructor
  · rintro ⟨rows, h⟩
    obtain ⟨X, hX, hname, -⟩ := (find?_ruleSets_iff hnames).mp h
    exact ⟨X, hX, hname⟩
  · rintro ⟨X, hX, rfl⟩
    exact ⟨_, find?_ruleSets hnames hX⟩

theorem mem_keys_semanticTraits_iff {name : String} :
    name ∈ d.semanticTraits.keys ↔ ∃ id ∈ d.liveSemantics, d.vocabulary.name id = name := by
  rw [semanticTraits, SortedMap.mem_keys_ofList_iff]
  simp only [List.mem_filterMap, Option.map_eq_some_iff, Prod.mk.injEq]
  constructor
  · rintro ⟨_, id, hid, s, hs, rfl, -⟩
    exact ⟨id, hid, Vocabulary.name_of_get? hs⟩
  · rintro ⟨id, hid, rfl⟩
    have hget : d.vocabulary.get? id = some _ :=
      List.getElem?_eq_getElem (mem_liveSemantics_iff.mp hid).1
    exact ⟨_, id, hid, _, hget, (Vocabulary.name_of_get? hget).symm, rfl⟩

theorem mem_keys_categoryInstances_iff {name : String} :
    name ∈ d.categoryInstances.keys ↔
      ∃ id ∈ d.liveEntityCategories, d.entityCategoryName id = name := by
  rw [categoryInstances, SortedMap.mem_keys_ofList_iff]
  simp only [List.mem_filterMap, Option.map_eq_some_iff, Prod.mk.injEq]
  constructor
  · rintro ⟨_, id, hid, c, -, rfl, -⟩
    exact ⟨id, hid, rfl⟩
  · rintro ⟨id, hid, rfl⟩
    obtain ⟨c, hc⟩ := mem_liveEntityCategories_iff.mp hid
    exact ⟨_, id, hid, c, hc, rfl, rfl⟩

end Draft

end QueryGrammar
