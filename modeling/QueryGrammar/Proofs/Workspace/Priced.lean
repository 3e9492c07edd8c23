import QueryGrammar.Proofs.Named.Finished
import QueryGrammar.Proofs.Semantic.Rounding
/-!
Insertion costs in drafts that calls lead to. Each was checked when its rule was registered, and no
later step gives a rule another one.
-/
namespace QueryGrammar

namespace Draft

variable {d e : Draft}

/-- All insertion costs of the draft were checked. -/
def Priced (d : Draft) : Prop := ∀ X, ∀ r ∈ d.rules X, r.Priced

/-! ### What all rules have -/

/-- All rules of the draft have the property. -/
def Every (P : Rule → Prop) (d : Draft) : Prop := ∀ X, ∀ r ∈ d.rules X, P r

section Every

variable {P : Rule → Prop}

theorem Every.of_subset (hd : Every P d) (h : ∀ X, e.rules X ⊆ d.rules X) : Every P e :=
  fun X r hr => hd X r (h X hr)

theorem Every.modifyRules {id : SymbolId} {g : List Rule → List Rule} (hd : Every P d)
    (hnew : ∀ r ∈ g (d.rules id), r ∈ d.rules id ∨ P r) :
    Every P (d.modifySymbol id fun s => { s with rules := g s.rules }) := by
  intro X r hr
  have hmem := (mem_rules_modifyRules.mp hr).2
  split at hmem
  next hX =>
    obtain rfl : id = X := by
      cases id
      cases X
      exact congrArg SymbolId.mk hX
    exact (hnew r hmem).elim (hd id r) fun h => h
  next => exact hd X r hmem

theorem Every.appendRule {id : SymbolId} {r : Rule} (hd : Every P d) (hr : P r) :
    Every P (d.appendRule id r) := by
  unfold Draft.appendRule
  split
  · refine hd.modifyRules (g := (· ++ [r])) fun q hq => ?_
    rcases List.mem_append.mp hq with hq | hq
    · exact Or.inl hq
    · exact Or.inr (List.mem_singleton.mp hq ▸ hr)
  · exact hd

theorem Every.newSymbolOf {isTermSequence : Bool} {parts : List String} {id : SymbolId}
    (hd : Every P d) (h : d.newSymbolOf isTermSequence parts = .ok (id, e)) : Every P e := by
  obtain ⟨name, -, -, heq⟩ := newSymbolOf_eq h
  obtain ⟨rfl, rfl⟩ := Prod.mk.inj heq
  exact hd.of_subset (rules_appendSymbol_subset rfl)

/-- What every rule has whose insertion cost was checked and that is no edit, all rules that are
registered have. -/
theorem every_stepInvariant (hP : ∀ r : Rule, r.Priced → r.edit = none → P r) :
    StepInvariant (Every P) where
  newSymbol hd h := hd.newSymbolOf h
  addRule hd h := by
    obtain ⟨r, hr, h⟩ := Outcome.ok_of_bind h
    cases h
    exact hd.appendRule (hP r (priced_of_ruleOf hr) (soundRule_of_ruleOf hr).unedited)
  addLexical hd h := by
    obtain ⟨f, rules, hnew, hrules, rfl⟩ := addLexical_eq h
    exact (hd.newSymbolOf hnew).modifyRules (g := fun _ => rules) fun r hr =>
      Or.inr (hP r (hrules r hr).2 (hrules r hr).1.unedited)
  newPhrase hd h := by
    obtain ⟨f, r, hnew, hsound, hr, rfl⟩ := newPhrase_eq h
    exact (hd.newSymbolOf hnew).appendRule (hP r hr hsound.unedited)
  newSemantic hd h := by
    obtain ⟨-, heq⟩ := newSemantic_eq h
    cases heq
    exact hd
  newEntityCategory hd h := by
    obtain ⟨-, heq⟩ := newEntityCategory_eq h
    cases heq
    exact hd
  deferStopWords _ hd := hd

end Every

theorem priced_stepInvariant : StepInvariant Priced := every_stepInvariant fun _ hr _ => hr

/-! ### Finishing -/

theorem Priced.trimmed (hd : d.Priced) (hstart : d.Expands start) : d.trimmed.Priced :=
  fun X r hr => hd X r ((mem_rules_trimmed_iff hstart).mp hr).expands.1

theorem MadeRule.priced {r : Rule} (h : d.MadeRule r) : r.Priced := by
  cases h <;> simp [Rule.Priced]

theorem Splits.priced {n : Nat} {K : SymbolId → List String → Prop} {r r' : Rule}
    (h : d.Splits n K r r') (hr : r.Priced) : r'.Priced := by
  cases h with
  | same => exact hr
  | nothing => simp [Rule.Priced]
  | row => exact hr

theorem Priced.tokenized (hd : d.Priced) (hconsistent : d.Consistent) : d.tokenize.2.Priced := by
  intro X r hr
  rcases hconsistent.tokenized.rule_cases (fun _ _ h => h.live) hr with ⟨-, q, hq, hsplits⟩ | hmade
  · exact hsplits.priced (hd X q hq)
  · exact hmade.priced

theorem Priced.withEdits (hd : d.Priced) (includeTrees : Bool) :
    (d.withEdits includeTrees).2.Priced := by
  intro X r hr
  rcases rule_withEdits_cases includeTrees hr with hr | ⟨parent, -, -, hmem⟩
  · exact hd X r hr
  · obtain ⟨first, second, cost, excluded, -, ⟨kept, -, omitted, position, c, -, rfl⟩ |
      ⟨price, -, rfl⟩⟩ := mem_editsOf_cases hmem
    · simp [Rule.Priced, insertionRule]
    · simp [Rule.Priced]

/-- What the search for insertions relies on. -/
structure Searchable (d : Draft) : Prop where
  consistent : d.Consistent
  priced : d.Priced

theorem Searchable.trimmed (hd : d.Searchable) (hstart : d.Expands start) :
    d.trimmed.Searchable :=
  ⟨hd.consistent.trimmed hstart, hd.priced.trimmed hstart⟩

theorem Searchable.tokenize_trimmed (hd : d.Searchable) (hstart : d.Expands start) :
    d.trimmed.tokenize.2.Searchable := by
  have htrimmed := hd.trimmed hstart
  exact ⟨htrimmed.consistent.split htrimmed.consistent.tokenized (used_trimmed hstart),
    htrimmed.priced.tokenized htrimmed.consistent⟩

theorem searchable_stepInvariant : StepInvariant Searchable where
  newSymbol hd h := ⟨consistent_stepInvariant.newSymbol hd.1 h, priced_stepInvariant.newSymbol hd.2 h⟩
  addRule hd h := ⟨consistent_stepInvariant.addRule hd.1 h, priced_stepInvariant.addRule hd.2 h⟩
  addLexical hd h :=
    ⟨consistent_stepInvariant.addLexical hd.1 h, priced_stepInvariant.addLexical hd.2 h⟩
  newPhrase hd h := ⟨consistent_stepInvariant.newPhrase hd.1 h, priced_stepInvariant.newPhrase hd.2 h⟩
  newSemantic hd h :=
    ⟨consistent_stepInvariant.newSemantic hd.1 h, priced_stepInvariant.newSemantic hd.2 h⟩
  newEntityCategory hd h :=
    ⟨consistent_stepInvariant.newEntityCategory hd.1 h, priced_stepInvariant.newEntityCategory hd.2 h⟩
  deferStopWords pending hd := ⟨hd.1.deferStopWords pending, hd.2⟩

theorem searchable_callInvariant : CallInvariant Searchable where
  toStepInvariant := searchable_stepInvariant
  trimmed hd hstart := hd.trimmed hstart
  complete o unused hd hstart :=
    ⟨(hd.consistent.complete_trimmed hstart o unused).1,
      (hd.tokenize_trimmed hstart).priced.withEdits o.includeTrees⟩

theorem searchable_empty : Draft.empty.Searchable :=
  ⟨consistent_empty, fun X r hr => by simp [rules_empty] at hr⟩

end Draft

/-- A draft that the search for insertions may be given: one that calls lead to, or one that
finishing has brought to the stage at which it searches. -/
inductive Reached : Draft → Prop where
  | built {ws : Workspace} (built : Built ws) : Reached ws.draft
  | prepared {ws : Workspace} (built : Built ws)
      (start : ws.draft.filled.Expands Draft.start) : Reached ws.draft.prepared

theorem Built.searchable {ws : Workspace} (h : Built ws) : ws.draft.Searchable :=
  h.induction Draft.searchable_callInvariant Draft.searchable_empty

theorem Reached.searchable {d : Draft} (h : Reached d) : d.Searchable := by
  cases h with
  | built h => exact h.searchable
  | prepared h hstart =>
    have hfilled : Draft.Searchable _ :=
      StopWords.keeps_fill Draft.searchable_stepInvariant _ h.searchable
    exact hfilled.tokenize_trimmed hstart

end QueryGrammar
