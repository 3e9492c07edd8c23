import QueryGrammar.Document.OfDraft
import QueryGrammar.Proofs.Document.Rows
import QueryGrammar.Proofs.Finish.Edits
import QueryGrammar.Proofs.Finish.Tokenize
/-!
Derivations of a document, and those of the draft it was made of. Rows stand under the names of
their symbols, so a derivation by names is one by numbers wherever no name is used twice.
-/
namespace QueryGrammar

namespace NamedRhs

/-- The symbols on a right-hand side. -/
def parts : NamedRhs → List String
  | symbols names => names
  | termSequence names => names
  | _ => []

/-- The tokens that a right-hand side reads itself. One terminal stands for none. -/
def tokens : NamedRhs → List Token
  | terminal term => (Draft.oneToken term).map .word
  | placeholder category => [.placeholder category]
  | _ => []

end NamedRhs

namespace Document

/-- The rows of a document that are no edits. -/
def productions (g : Document) : Productions String NamedRule Token NamedAttachment where
  has name row := ∃ rows, g.ruleSets.find? name = some rows ∧ row ∈ rows ∧ row.edit = none
  parts row := row.rhs.parts
  tokens row := row.rhs.tokens
  attached row := row.semantic.toList

end Document

/-! ### Maps by name -/

namespace SortedMap

variable {α : Type} {pairs : List (String × α)} {key : String} {value : α}

theorem mem_entries_ofList_iff (h : ∀ p ∈ pairs, ∀ q ∈ pairs, p.1 = q.1 → p.2 = q.2)
    {p : String × α} : p ∈ (ofList pairs).entries ↔ p ∈ pairs :=
  Keyed.mem_ofList_last_iff h

theorem find?_ofList_iff (h : (pairs.map Prod.fst).Nodup) :
    (ofList pairs).find? key = some value ↔ (key, value) ∈ pairs := by
  rw [← mem_entries_ofList_iff fun p hp q hq hkey =>
    congrArg Prod.snd (List.inj_on_of_nodup_map h hp hq hkey)]
  exact ⟨Keyed.mem_of_find?, Keyed.find?_of_mem (ofList pairs).ascending.nodup_keys⟩

theorem mem_keys_iff {m : SortedMap α} : key ∈ m.keys ↔ ∃ value, m.find? key = some value := by
  constructor
  · intro h
    obtain ⟨⟨k, v⟩, hmem, rfl⟩ := List.mem_map.mp h
    exact ⟨v, Keyed.find?_of_mem m.ascending.nodup_keys hmem⟩
  · rintro ⟨value, h⟩
    exact List.mem_map.mpr ⟨(key, value), Keyed.mem_of_find? h, rfl⟩

theorem mem_keys_ofList_iff : key ∈ (ofList pairs).keys ↔ ∃ value, (key, value) ∈ pairs := by
  rw [mem_keys_iff]
  have hfind : (ofList pairs).find? key = Keyed.find? key pairs.reverse :=
    Keyed.find?_ofList_last pairs key
  constructor
  · rintro ⟨value, h⟩
    exact ⟨value, List.mem_reverse.mp (Keyed.mem_of_find? (hfind ▸ h))⟩
  · rintro ⟨value, h⟩
    rw [hfind]
    cases hv : Keyed.find? key pairs.reverse with
    | some v => exact ⟨v, rfl⟩
    | none =>
      have hnone := List.find?_eq_none.mp (Option.map_eq_none_iff.mp hv) (key, value)
        (List.mem_reverse.mpr h)
      simp at hnone

end SortedMap

namespace Draft

variable {d e : Draft}

/-! ### Rule sets of a draft -/

theorem symbolName_of_get? {id : SymbolId} {s : Symbol} (h : d.get? id = some s) :
    d.symbolName id = s.name := by
  rw [symbolName, (get?_eq_some_iff.mp h).1]

theorem symbolName_inj (hnames : (d.symbols.map (·.name)).Nodup) {X Y : SymbolId}
    (hX : X ∈ d.liveSymbols) (hY : Y ∈ d.liveSymbols) (h : d.symbolName X = d.symbolName Y) :
    X = Y := by
  obtain ⟨s, hs⟩ := mem_liveSymbols_iff.mp hX
  obtain ⟨t, ht⟩ := mem_liveSymbols_iff.mp hY
  rw [symbolName_of_get? hs, symbolName_of_get? ht] at h
  have hsi := (get?_eq_some_iff.mp hs).1
  have hti := (get?_eq_some_iff.mp ht).1
  have hlt : X.index < (d.symbols.map (·.name)).length := by
    simpa using (List.getElem?_eq_some_iff.mp hsi).1
  have hindex : X.index = Y.index := by
    refine (List.getElem?_inj hlt hnames).mp ?_
    rw [List.getElem?_map, List.getElem?_map, hsi, hti, Option.map_some, Option.map_some, h]
  cases X
  cases Y
  exact congrArg SymbolId.mk hindex

theorem nodup_liveNames (hnames : (d.symbols.map (·.name)).Nodup) :
    (d.liveSymbols.map d.symbolName).Nodup :=
  d.nodup_liveSymbols.map_on fun _ hX _ hY h => symbolName_inj hnames hX hY h

theorem find?_ruleSets_iff (hnames : (d.symbols.map (·.name)).Nodup) {name : String}
    {rows : List NamedRule} : d.ruleSets.find? name = some rows ↔
      ∃ X ∈ d.liveSymbols, d.symbolName X = name ∧
        NamedRule.canonical ((d.rules X).map d.namedRule) = rows := by
  have hkeys : ((d.liveSymbols.map fun id => (d.symbolName id,
      NamedRule.canonical ((d.rules id).map d.namedRule))).map Prod.fst).Nodup := by
    rw [List.map_map]
    exact nodup_liveNames hnames
  rw [ruleSets, SortedMap.find?_ofList_iff hkeys]
  simp only [List.mem_map, Prod.mk.injEq]

theorem find?_ruleSets (hnames : (d.symbols.map (·.name)).Nodup) {X : SymbolId}
    (hX : X ∈ d.liveSymbols) : d.ruleSets.find? (d.symbolName X) =
      some (NamedRule.canonical ((d.rules X).map d.namedRule)) :=
  (find?_ruleSets_iff hnames).mpr ⟨X, hX, rfl, rfl⟩

/-! ### Rules and rows -/

/-- The rules that are no edits, where every terminal is one token. -/
def uneditedProductions (d : Draft) : Productions SymbolId Rule Token NamedAttachment :=
  { d.tokenProductions with has := fun id rule => rule ∈ d.rules id ∧ rule.edit = none }

/-- The row of a rule reads and attaches what the rule does. -/
theorem corresponds_of_alike {r : Rule} {row : NamedRule} (h : row.Alike (d.namedRule r)) :
    d.uneditedProductions.Corresponds (Document.ofDraft d).productions d.symbolName r row := by
  obtain ⟨hrhs, hsemantic, -⟩ := h
  refine ⟨?_, ?_, ?_⟩
  · show row.rhs.parts = r.expansion.parts.map d.symbolName
    rw [hrhs]
    cases hx : r.expansion <;>
      simp [namedRule, namedExpansion, hx, NamedRhs.parts, Expansion.parts]
  · show row.rhs.tokens = d.ownTokens oneToken r.expansion
    rw [hrhs]
    cases hx : r.expansion <;>
      simp [namedRule, namedExpansion, hx, NamedRhs.tokens, ownTokens]
  · show row.semantic.toList = _
    rw [hsemantic]
    rfl

theorem isSome_edit_namedRule (d : Draft) (r : Rule) :
    (d.namedRule r).edit.isSome = r.edit.isSome := by
  simp [namedRule]

theorem edit_eq_none_of_alike {r : Rule} {row : NamedRule} (h : row.Alike (d.namedRule r)) :
    row.edit = none ↔ r.edit = none := by
  have hsome := h.edit.trans (d.isSome_edit_namedRule r)
  rw [← Option.isNone_iff_eq_none, ← Option.isNone_iff_eq_none, ← Option.not_isSome, hsome,
    Option.not_isSome]

/-- A document derives from the name of a live symbol what its draft derives from the symbol. -/
theorem derives_ofDraft_iff (hnames : (d.symbols.map (·.name)).Nodup)
    (hparts : ∀ X, ∀ r ∈ d.rules X, r.edit = none →
      ∀ Y ∈ r.expansion.parts, Y ∈ d.liveSymbols)
    {X : SymbolId} (hX : X ∈ d.liveSymbols) {w : List Token} {s : List NamedAttachment} :
    (Document.ofDraft d).productions.Derives (d.symbolName X) w s ↔
      d.uneditedProductions.Derives X w s := by
  constructor
  · refine @Productions.Derives.comap _ _ _ _ _ _ _ _ d.symbolName (· ∈ d.liveSymbols) ?_ X w s hX
    rintro X row hX ⟨rows, hrows, hrow, hedit⟩
    obtain ⟨Y, hY, hname, rfl⟩ := (find?_ruleSets_iff hnames).mp hrows
    obtain rfl := symbolName_inj hnames hY hX hname
    obtain ⟨r, hr, rfl⟩ := List.mem_map.mp (NamedRule.mem_of_mem_canonical hrow)
    have halike : (d.namedRule r).Alike (d.namedRule r) := ⟨rfl, rfl, rfl⟩
    have hnone := (edit_eq_none_of_alike halike).mp hedit
    exact ⟨r, ⟨hr, hnone⟩, hparts Y r hr hnone, corresponds_of_alike halike⟩
  · refine @Productions.Derives.map _ _ _ _ _ _ _ _ d.symbolName (fun X r hr => ?_) X w s
    obtain ⟨row, hrow, halike⟩ := NamedRule.exists_alike_of_mem
      (List.mem_map_of_mem (f := d.namedRule) hr.1)
    exact ⟨row, ⟨_, find?_ruleSets hnames (live_of_mem_rules hr.1), hrow,
      (edit_eq_none_of_alike halike).mpr hr.2⟩, corresponds_of_alike halike⟩

/-- Edits take nothing from the other rules. -/
theorem uneditedProductions_withEdits (hd : ∀ X, ∀ r ∈ d.rules X, r.edit = none)
    (includeTrees : Bool) :
    (d.withEdits includeTrees).2.uneditedProductions = d.tokenProductions := by
  have hrest := (d.addsRules_withEdits includeTrees).rest
  have hhas : ∀ X r, (r ∈ (d.withEdits includeTrees).2.rules X ∧ r.edit = none) ↔
      r ∈ d.rules X := fun X r => mem_rules_withEdits_iff hd
  have hvocabulary : (d.withEdits includeTrees).2.vocabulary = d.vocabulary := by rw [hrest]
  have hcategories : (d.withEdits includeTrees).2.entityCategoryName = d.entityCategoryName := by
    funext id
    rw [hrest]
    rfl
  have hown : (d.withEdits includeTrees).2.ownTokens oneToken = d.ownTokens oneToken := by
    funext x
    cases x <;> simp [ownTokens, hcategories]
  simp only [uneditedProductions, tokenProductions, productionsBy, hhas, hvocabulary, hown]

end Draft

end QueryGrammar
