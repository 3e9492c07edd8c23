import QueryGrammar.Proofs.Workspace.Built
/-!
Names under calls. A symbol or a semantic keeps its number and its name whatever happens to the draft:
what is removed keeps its place, and everything else is only appended.
-/
namespace QueryGrammar

open Change

namespace Draft

variable {d e f : Draft}

/-- Names stay at their numbers; pruning does not free them. -/
structure KeepsNames (d e : Draft) : Prop where
  symbols : ∀ (i : Nat) name, (d.symbols.map (·.name))[i]? = some name →
    (e.symbols.map (·.name))[i]? = some name
  semantics : ∀ (i : Nat) name, (d.vocabulary.definitions.map (·.name))[i]? = some name →
    (e.vocabulary.definitions.map (·.name))[i]? = some name

theorem KeepsNames.refl (d : Draft) : d.KeepsNames d := ⟨fun _ _ h => h, fun _ _ h => h⟩

theorem KeepsNames.trans (hde : d.KeepsNames e) (hef : e.KeepsNames f) : d.KeepsNames f :=
  ⟨fun i name h => hef.symbols i name (hde.symbols i name h),
    fun i name h => hef.semantics i name (hde.semantics i name h)⟩

theorem KeepsNames.length_le (h : d.KeepsNames e) :
    d.symbols.length ≤ e.symbols.length := by
  by_contra hlt
  obtain ⟨s, hs⟩ : ∃ s, d.symbols[e.symbols.length]? = some s :=
    ⟨_, List.getElem?_eq_getElem (Nat.not_le.mp hlt)⟩
  have hname := h.symbols e.symbols.length s.name (by rw [List.getElem?_map, hs, Option.map_some])
  simpa using (List.getElem?_eq_some_iff.mp hname).1

theorem getElem?_map_concat {α : Type} {name : α → String} {items : List α} {x : α} {i : Nat}
    {n : String} (h : (items.map name)[i]? = some n) : ((items ++ [x]).map name)[i]? = some n := by
  rw [List.map_append, List.getElem?_append_left (List.getElem?_eq_some_iff.mp h).1]
  exact h

theorem keepsNames_appendSymbol (d : Draft) (s : Symbol) : d.KeepsNames (d.appendSymbol s).2 :=
  ⟨fun _ _ h => getElem?_map_concat h, fun _ _ h => h⟩

theorem keepsNames_newSymbolOf {isTermSequence : Bool} {parts : List String} {id : SymbolId}
    (h : d.newSymbolOf isTermSequence parts = .ok (id, e)) : d.KeepsNames e := by
  obtain ⟨name, -, -, heq⟩ := newSymbolOf_eq h
  obtain ⟨rfl, rfl⟩ := Prod.mk.inj heq
  exact d.keepsNames_appendSymbol _

theorem keepsNames_modifyRules (d : Draft) (id : SymbolId) (g : List Rule → List Rule) :
    d.KeepsNames (d.modifySymbol id fun s => { s with rules := g s.rules }) :=
  ⟨fun i name h => by rw [names_modifySymbol]; exact h, fun _ _ h => h⟩

theorem keepsNames_appendRule (d : Draft) (id : SymbolId) (r : Rule) :
    d.KeepsNames (d.appendRule id r) := by
  unfold appendRule
  split
  · exact d.keepsNames_modifyRules id (· ++ [r])
  · exact .refl d

theorem keepsNames_newSemantic {definition : Semantic} {id : SemanticId}
    (h : d.newSemantic definition = .ok (id, e)) : d.KeepsNames e := by
  obtain ⟨-, heq⟩ := newSemantic_eq h
  cases heq
  exact ⟨fun _ _ h => h, fun _ _ h => getElem?_map_concat h⟩

theorem keepsNames_trimmed (d : Draft) : d.KeepsNames d.trimmed :=
  ⟨fun i name h => by rw [trimmed_names]; exact h,
    fun i name h => by rw [trimmed_vocabulary]; exact h⟩

theorem Tokenized.keepsNames {K : SymbolId → List String → Prop} {done : List SymbolId}
    (h : Tokenized K d done e) : d.KeepsNames e where
  symbols i name hname := by
    rw [List.getElem?_map, Option.map_eq_some_iff] at hname ⊢
    obtain ⟨s, hs, rfl⟩ := hname
    obtain ⟨rules, hrules, -⟩ := h.content ⟨i⟩ s hs
    exact ⟨_, hrules, rfl⟩
  semantics i name hname := by
    rw [h.rest]
    exact hname

theorem AddsRules.keepsNames {P : SymbolId → Rule → Prop} (h : AddsRules P d e) :
    d.KeepsNames e where
  symbols i name hname := by
    rw [h.names]
    exact hname
  semantics i name hname := by
    rw [h.rest]
    exact hname

theorem Consistent.keepsNames_complete (hd : d.Consistent) (hstart : d.Expands start) (o : Options)
    (unused : List String) : d.KeepsNames (d.trimmed.complete o unused).2 :=
  d.keepsNames_trimmed.trans
    ((hd.trimmed hstart).tokenized.keepsNames.trans (addsRules_withEdits _ o.includeTrees).keepsNames)

end Draft

/-- Whatever is called, names stay at their numbers. -/
theorem keepsNames_callInvariant (d : Draft) :
    CallInvariant fun e => e.Consistent ∧ d.KeepsNames e where
  newSymbol hd h := ⟨consistent_stepInvariant.newSymbol hd.1 h,
    hd.2.trans (Draft.keepsNames_newSymbolOf h)⟩
  addRule hd h := by
    refine ⟨consistent_stepInvariant.addRule hd.1 h, hd.2.trans ?_⟩
    obtain ⟨r, -, h⟩ := Outcome.ok_of_bind h
    cases h
    exact Draft.keepsNames_appendRule _ _ r
  addLexical hd h := by
    refine ⟨consistent_stepInvariant.addLexical hd.1 h, hd.2.trans ?_⟩
    obtain ⟨f, rules, hnew, -, rfl⟩ := Draft.addLexical_eq h
    exact (Draft.keepsNames_newSymbolOf hnew).trans (f.keepsNames_modifyRules _ fun _ => rules)
  newPhrase hd h := by
    refine ⟨consistent_stepInvariant.newPhrase hd.1 h, hd.2.trans ?_⟩
    obtain ⟨f, r, hnew, -, -, rfl⟩ := Draft.newPhrase_eq h
    exact (Draft.keepsNames_newSymbolOf hnew).trans (f.keepsNames_appendRule _ r)
  newSemantic hd h := ⟨consistent_stepInvariant.newSemantic hd.1 h,
    hd.2.trans (Draft.keepsNames_newSemantic h)⟩
  newEntityCategory hd h := by
    refine ⟨consistent_stepInvariant.newEntityCategory hd.1 h, hd.2.trans ?_⟩
    obtain ⟨-, heq⟩ := Draft.newEntityCategory_eq h
    cases heq
    exact ⟨fun _ _ h => h, fun _ _ h => h⟩
  deferStopWords pending hd :=
    ⟨hd.1.deferStopWords pending, hd.2.trans ⟨fun _ _ h => h, fun _ _ h => h⟩⟩
  trimmed hd hstart := ⟨hd.1.trimmed hstart, hd.2.trans (Draft.keepsNames_trimmed _)⟩
  complete o unused hd hstart := ⟨(hd.1.complete_trimmed hstart o unused).1,
    hd.2.trans (hd.1.keepsNames_complete hstart o unused)⟩

theorem Built.keepsNames {ws : Workspace} (h : Built ws) : Draft.empty.KeepsNames ws.draft :=
  (h.induction (keepsNames_callInvariant Draft.empty) ⟨Draft.consistent_empty, .refl _⟩).2

/-- The start symbol has its name in every workspace. -/
theorem Built.symbolName_start {ws : Workspace} (h : Built ws) :
    ws.draft.symbolName Draft.start = Draft.empty.symbolName Draft.start := by
  have hname := h.keepsNames.symbols 0 (Draft.empty.symbolName Draft.start) rfl
  obtain ⟨s, hs, hname⟩ := Option.map_eq_some_iff.mp (List.getElem?_map ▸ hname)
  rw [Draft.symbolName, show ws.draft.symbols[Draft.start.index]? = some s from hs]
  exact hname

end QueryGrammar
