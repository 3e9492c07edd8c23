import QueryGrammar.Proofs.Draft.Shaped
import QueryGrammar.Proofs.Finish.Stable
/-!
What can be relied on in every draft that calls lead to, refused ones and ones with old or invalid
numbers among them: names and numbers of symbols belong together, and each rule of a live symbol
refers to what is live and carries only what means something for its kind of expansion.
-/
namespace QueryGrammar

namespace Draft

/-- A rule that refers to what is live and has the costs and positions of its kind. -/
structure IntactRule (d : Draft) (r : Rule) : Prop where
  symbols : ∀ Y ∈ r.expansion.parts, Y ∈ d.liveSymbols
  category : ∀ c, r.expansion = .placeholder c → c ∈ d.liveEntityCategories
  length : (∀ term text, r.expansion ≠ .terminal term text) →
    (∀ c, r.expansion ≠ .placeholder c) →
      r.expansion.parts.length = 1 ∨ r.expansion.parts.length = 2
  termSequences : ∀ first second text, r.expansion = .sequence first second text →
    ∀ Y ∈ r.expansion.parts, ∃ s, d.get? Y = some s ∧ s.isTermSequence = true
  closed : ∀ first second cost excluded, r.expansion = .binary first second cost excluded →
    ∀ i ∈ excluded.indexes, i < 2
  insertion : ∀ cost, r.insertionCost = some cost →
    r.expansion.isLexical = true ∧ cost.isFinite = true ∧ 0 ≤ cost
  transposition : ∀ first second cost excluded,
    r.expansion = .binary first second (some cost) excluded →
      r.edit = none ∧ cost.isFinite = true ∧ 0 ≤ cost
  terminal : ∀ term text, r.expansion = .terminal term text →
    ∀ chain, r.semantic ≠ some (.deferred chain)

/-- Names and numbers belong together one to one, also those of pruned symbols; the live ones are
found by their names; and the rules of all live symbols are intact. -/
structure Intact (d : Draft) : Prop where
  names : ∀ X Y : SymbolId, X.index < d.symbols.length → Y.index < d.symbols.length →
    d.symbolName X = d.symbolName Y → X = Y
  found : ∀ name X, d.find? name = some X ↔ X ∈ d.liveSymbols ∧ d.symbolName X = name
  rules : ∀ X ∈ d.liveSymbols, ∀ r ∈ d.rules X, d.IntactRule r

variable {d e : Draft}

theorem symbolName_injOn (hnames : (d.symbols.map (·.name)).Nodup) {X Y : SymbolId}
    (hX : X.index < d.symbols.length) (hY : Y.index < d.symbols.length)
    (h : d.symbolName X = d.symbolName Y) : X = Y := by
  have hname : ∀ Z : SymbolId, Z.index < d.symbols.length →
      (d.symbols.map (·.name))[Z.index]? = some (d.symbolName Z) := by
    intro Z hZ
    rw [List.getElem?_map, symbolName, List.getElem?_eq_getElem hZ]
    rfl
  have hindex : X.index = Y.index := by
    apply (List.getElem?_inj (by simpa using hX) hnames).mp
    rw [hname X hX, hname Y hY, h]
  cases X
  cases Y
  exact congrArg SymbolId.mk hindex

theorem find?_iff (hnames : (d.symbols.map (·.name)).Nodup) {name : String} {X : SymbolId} :
    d.find? name = some X ↔ X ∈ d.liveSymbols ∧ d.symbolName X = name := by
  have hsound : ∀ Z, d.find? name = some Z → Z ∈ d.liveSymbols ∧ d.symbolName Z = name := by
    intro Z hZ
    obtain ⟨i, hi, rfl⟩ := Option.map_eq_some_iff.mp hZ
    obtain ⟨hlt, hmatch, -⟩ := List.findIdx?_eq_some_iff_getElem.mp hi
    obtain ⟨hname, hlive⟩ := by simpa using hmatch
    have hget : d.get? ⟨i⟩ = some d.symbols[i] :=
      get?_eq_some_iff.mpr ⟨List.getElem?_eq_getElem hlt, hlive⟩
    exact ⟨mem_liveSymbols_iff.mpr ⟨_, hget⟩, (symbolName_of_get? hget).trans hname⟩
  constructor
  · exact hsound X
  · rintro ⟨hX, hname⟩
    obtain ⟨s, hs⟩ := mem_liveSymbols_iff.mp hX
    rw [symbolName_of_get? hs] at hname
    obtain ⟨hget, hlive⟩ := get?_eq_some_iff.mp hs
    cases hfind : d.find? name with
    | none =>
      have hnone := List.findIdx?_eq_none_iff.mp (Option.map_eq_none_iff.mp hfind) s
        (List.mem_of_getElem? hget)
      simp [hname, hlive] at hnone
    | some Z =>
      obtain ⟨hZ, heq⟩ := hsound Z hfind
      rw [symbolName_inj hnames hZ hX (heq.trans (by rw [symbolName_of_get? hs, hname]))]

theorem length_parts (x : Expansion) (hterminal : ∀ term text, x ≠ .terminal term text)
    (hplaceholder : ∀ c, x ≠ .placeholder c) : x.parts.length = 1 ∨ x.parts.length = 2 := by
  cases x with
  | unary part noInsertion => exact Or.inl rfl
  | binary first second cost excluded => exact Or.inr rfl
  | terminal term text => exact absurd rfl (hterminal term text)
  | sequence first second text =>
    cases second with
    | none => exact Or.inl rfl
    | some part => exact Or.inr rfl
  | placeholder c => exact absurd rfl (hplaceholder c)

theorem lt_of_mem_indexes {excluded : Excluded} {i : Nat} (h : i ∈ excluded.indexes) : i < 2 := by
  rcases mem_indexes_iff.mp h with ⟨rfl, -⟩ | ⟨rfl, -⟩
  · decide
  · decide

theorem isCost_iff {cost : Float} :
    Vocabulary.isCost cost = true ↔ cost.isFinite = true ∧ 0 ≤ cost := by
  simp [Vocabulary.isCost]

/-- What the invariants of calls say about one rule, put together. -/
theorem Searchable.intactRule (hd : d.Searchable) (hshaped : d.Shaped) {X : SymbolId} {r : Rule}
    (hr : r ∈ d.rules X) : d.IntactRule r := by
  have hfit := hd.consistent.rules X r hr
  have hshape := hshaped.rules X r hr
  constructor
  · exact hfit.parts
  · exact hfit.category
  · exact length_parts r.expansion
  · intro first second text hx Y hY
    have hlexical : r.expansion.isLexical = true := by
      rw [hx]
      rfl
    obtain ⟨s, hs⟩ := mem_liveSymbols_iff.mp (hfit.parts Y hY)
    obtain ⟨t, ht, hflag⟩ := hshape.sequence hlexical Y hY
    obtain rfl := Option.some.inj (ht.symm.trans (get?_eq_some_iff.mp hs).1)
    exact ⟨t, hs, hflag⟩
  · intro _ _ _ _ _ i hi
    exact lt_of_mem_indexes hi
  · intro cost hcost
    have hsome : r.insertionCost.isSome = true := by
      rw [hcost]
      rfl
    exact ⟨hfit.insertion hsome, isCost_iff.mp (hd.priced X r hr cost hcost)⟩
  · intro first second cost excluded hx
    exact ⟨hfit.transposition first second cost excluded hx,
      isCost_iff.mp (hshape.transposition first second cost excluded hx)⟩
  · intro term text hx chain
    exact hshape.terminal term text chain hx

theorem shaped_empty : Draft.empty.Shaped where
  made := by decide
  rules X r hr := by simp [rules_empty] at hr

theorem shaped_callInvariant : CallInvariant Shaped where
  newSymbol hd h := (hd.newSymbolOf h).1
  addRule hd h := hd.addRule h
  addLexical hd h := hd.addLexical h
  newPhrase hd h := hd.newPhrase h
  newSemantic hd h := by
    obtain ⟨-, heq⟩ := newSemantic_eq h
    cases heq
    exact ⟨hd.made, fun X r hr => (hd.rules X r hr).mono fun _ hY => hY⟩
  newEntityCategory hd h := by
    obtain ⟨-, heq⟩ := newEntityCategory_eq h
    cases heq
    exact ⟨hd.made, fun X r hr => (hd.rules X r hr).mono fun _ hY => hY⟩
  deferStopWords _ hd := ⟨hd.made, fun X r hr => (hd.rules X r hr).mono fun _ hY => hY⟩
  trimmed hd hstart := hd.trimmed hstart
  complete o _ hd hstart := ((hd.trimmed hstart).tokenize).withEdits o.includeTrees

end Draft

theorem Built.shaped {ws : Workspace} (h : Built ws) : ws.draft.Shaped :=
  h.induction Draft.shaped_callInvariant Draft.shaped_empty

theorem Built.intact {ws : Workspace} (h : Built ws) : ws.draft.Intact where
  names _ _ hX hY := Draft.symbolName_injOn h.consistent.names hX hY
  found _ _ := Draft.find?_iff h.consistent.names
  rules _ _ _ hr := h.searchable.intactRule h.shaped hr

theorem intact_greetings : Built greetings ∧ greetings.draft.Intact :=
  ⟨built_greetings, built_greetings.intact⟩

end QueryGrammar
