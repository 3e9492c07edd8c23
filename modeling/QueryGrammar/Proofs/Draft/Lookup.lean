import Mathlib.Data.List.Nodup
import QueryGrammar.Draft.Basic
import QueryGrammar.Document.OfDraft
import QueryGrammar.Proofs.Derivation.Tree
/-!
What a draft holds at a number, and how its rules read: the derivations of a draft and the tokens
and semantics they yield.
-/
namespace QueryGrammar

/-- What a parser reads: a word, or a name of an entity category. -/
inductive Token where
  | word (text : String)
  | placeholder (category : String)
  deriving DecidableEq

namespace Draft

variable {d : Draft}

/-! ### Symbols at their numbers -/

theorem get?_eq_some_iff {id : SymbolId} {s : Symbol} :
    d.get? id = some s ↔ d.symbols[id.index]? = some s ∧ s.pruned = false := by
  simp [get?, Option.filter_eq_some_iff]

theorem mem_liveSymbols_iff {id : SymbolId} :
    id ∈ d.liveSymbols ↔ ∃ s, d.get? id = some s := by
  simp only [liveSymbols, List.mem_filterMap, Prod.exists, List.mk_mem_zipIdx_iff_getElem?,
    get?_eq_some_iff]
  constructor
  · rintro ⟨s, i, hs, h⟩
    cases hp : s.pruned with
    | true => simp [hp] at h
    | false =>
      obtain rfl : (⟨i⟩ : SymbolId) = id := by simpa [hp] using h
      exact ⟨s, hs, hp⟩
  · rintro ⟨s, hs, hp⟩
    exact ⟨s, id.index, hs, by simp [hp]⟩

theorem nodup_liveSymbols (d : Draft) : d.liveSymbols.Nodup := by
  have hlt : (d.symbols.zipIdx).Pairwise fun a b => a.2 < b.2 := by
    have h := List.pairwise_lt_range' (s := 0) (n := d.symbols.length)
    rw [← List.zipIdx_map_snd 0 d.symbols, List.pairwise_map] at h
    exact h
  refine List.Pairwise.filterMap _ (fun a b hab x hx y hy => ?_) hlt
  rintro rfl
  obtain ⟨s, i⟩ := a
  obtain ⟨t, j⟩ := b
  simp only [Option.ite_none_left_eq_some, Option.some.injEq] at hx hy
  have hij : i = j := SymbolId.mk.inj (hx.2.trans hy.2.symm)
  exact absurd hab (by simp [hij])

theorem rules_of_get? {id : SymbolId} {s : Symbol} (h : d.get? id = some s) :
    d.rules id = s.rules := by
  simp [rules, h]

theorem live_of_mem_rules {id : SymbolId} {r : Rule} (h : r ∈ d.rules id) :
    id ∈ d.liveSymbols := by
  rw [mem_liveSymbols_iff]
  cases hs : d.get? id with
  | none => simp [rules, hs] at h
  | some s => exact ⟨s, rfl⟩

theorem mem_liveEntityCategories_iff {id : EntityCategoryId} :
    id ∈ d.liveEntityCategories ↔ ∃ c, d.entityCategory? id = some c := by
  simp only [liveEntityCategories, entityCategory?, List.mem_filterMap, Prod.exists,
    List.mk_mem_zipIdx_iff_getElem?, Option.filter_eq_some_iff]
  constructor
  · rintro ⟨c, i, hc, h⟩
    cases hp : c.pruned with
    | true => simp [hp] at h
    | false =>
      obtain rfl : (⟨i⟩ : EntityCategoryId) = id := by simpa [hp] using h
      exact ⟨c, hc, by simp [hp]⟩
  · rintro ⟨c, hc, hp⟩
    exact ⟨c, id.index, hc, by simp_all⟩

theorem mem_ids_iff {v : Vocabulary} {id : SemanticId} :
    id ∈ v.ids ↔ id.index < v.size := by
  simp only [Vocabulary.ids, List.mem_map, List.mem_range]
  constructor
  · rintro ⟨i, hi, rfl⟩
    exact hi
  · exact fun h => ⟨id.index, h, rfl⟩

theorem mem_liveSemantics_iff {id : SemanticId} :
    id ∈ d.liveSemantics ↔ id.index < d.vocabulary.size ∧ id ∉ d.prunedSemantics := by
  simp [liveSemantics, mem_ids_iff]

/-! ### What rules use -/

/-- Some rule of a live symbol has the semantic in its attachment. -/
def Attaches (d : Draft) (id : SemanticId) : Prop :=
  ∃ X, ∃ r ∈ d.rules X, ∃ a, r.semantic = some a ∧ id ∈ a.ids

/-- Some rule of a live symbol reads a name of the entity category. -/
def Places (d : Draft) (id : EntityCategoryId) : Prop :=
  ∃ X, ∃ r ∈ d.rules X, r.expansion = .placeholder id

/-! ### Derivations of a draft -/

/-- The tokens that an expansion reads itself, where `split` gives those of a terminal. -/
def ownTokens (d : Draft) (split : String → List String) : Expansion → List Token
  | .terminal term _ => (split term).map .word
  | .placeholder category => [.placeholder (d.entityCategoryName category)]
  | _ => []

/-- The rules of the live symbols, where `split` gives the tokens of a terminal. -/
def productionsBy (d : Draft) (split : String → List String) :
    Productions SymbolId Rule Token NamedAttachment where
  has id rule := rule ∈ d.rules id
  parts rule := rule.expansion.parts
  tokens rule := d.ownTokens split rule.expansion
  attached rule := (rule.semantic.map d.vocabulary.namedAttachment).toList

/-- The rules of the live symbols. A terminal reads the words that stand between its blanks. -/
def productions (d : Draft) : Productions SymbolId Rule Token NamedAttachment :=
  d.productionsBy Text.wordsOf

/-- Some derivation from the start symbol applies the rule at a node for the symbol. -/
def Applies (d : Draft) (id : SymbolId) (rule : Rule) : Prop :=
  d.productions.Applies start id rule

/-- Some derivation from the start symbol has a node for the symbol. -/
def Occurs (d : Draft) (id : SymbolId) : Prop := d.productions.Occurs start id

/-- The symbol has a finite expansion. -/
def Expands (d : Draft) (id : SymbolId) : Prop := d.productions.Expands id

end Draft

end QueryGrammar
