import QueryGrammar.Proofs.Workspace.Composite
/-!
What is shared in the workspaces that calls lead to. Words and operands keep their numbers and semantics
their definitions, and what a registration puts with them is registered, also if it is refused on the
way.
-/
namespace QueryGrammar

open Change Draft

/-! ### Numbers that stay -/

theorem Draft.vocabulary_appendRule (d : Draft) (id : SymbolId) (r : Rule) :
    (d.appendRule id r).vocabulary = d.vocabulary := by
  unfold appendRule
  split <;> rfl

/-- Only the registration of a semantic touches the vocabulary. -/
theorem vocabulary_callInvariant {P : Vocabulary → Prop}
    (hP : ∀ {v w : Vocabulary} {definition : Semantic} {id : SemanticId},
      P v → v.register definition = .ok (id, w) → P w) :
    CallInvariant fun e => e.Consistent ∧ P e.vocabulary where
  newSymbol hd h := by
    refine ⟨consistent_stepInvariant.newSymbol hd.1 h, ?_⟩
    obtain ⟨name, -, -, heq⟩ := newSymbolOf_eq h
    cases heq
    exact hd.2
  addRule hd h := by
    refine ⟨consistent_stepInvariant.addRule hd.1 h, ?_⟩
    obtain ⟨r, -, h⟩ := Outcome.ok_of_bind h
    cases h
    rw [vocabulary_appendRule]
    exact hd.2
  addLexical hd h := by
    refine ⟨consistent_stepInvariant.addLexical hd.1 h, ?_⟩
    obtain ⟨f, rules, hnew, -, rfl⟩ := addLexical_eq h
    obtain ⟨name, -, -, heq⟩ := newSymbolOf_eq hnew
    cases heq
    exact hd.2
  newPhrase hd h := by
    refine ⟨consistent_stepInvariant.newPhrase hd.1 h, ?_⟩
    obtain ⟨f, r, hnew, -, -, rfl⟩ := newPhrase_eq h
    obtain ⟨name, -, -, heq⟩ := newSymbolOf_eq hnew
    cases heq
    rw [vocabulary_appendRule]
    exact hd.2
  newSemantic hd h := by
    refine ⟨consistent_stepInvariant.newSemantic hd.1 h, ?_⟩
    obtain ⟨⟨_, v⟩, hregister, heq⟩ := Outcome.ok_of_bind h
    cases heq
    exact hP hd.2 hregister
  newEntityCategory hd h := by
    refine ⟨consistent_stepInvariant.newEntityCategory hd.1 h, ?_⟩
    obtain ⟨-, heq⟩ := newEntityCategory_eq h
    cases heq
    exact hd.2
  deferStopWords pending hd := ⟨hd.1.deferStopWords pending, hd.2⟩
  trimmed hd hstart := ⟨hd.1.trimmed hstart, by rw [trimmed_vocabulary]; exact hd.2⟩
  complete {d} o unused hd hstart := by
    refine ⟨(hd.1.complete_trimmed hstart o unused).1, ?_⟩
    have hedits := congrArg Draft.vocabulary (addsRules_withEdits d.trimmed.tokenize.2 o.includeTrees).rest
    have htokens := congrArg Draft.vocabulary (hd.1.trimmed hstart).tokenized.rest
    rw [complete_draft, hedits, htokens, trimmed_vocabulary]
    exact hd.2

/-- Whatever is called, the semantics stay as they were defined. -/
theorem definitions_callInvariant (definitions : List Semantic) :
    CallInvariant fun e => e.Consistent ∧ definitions <+: e.vocabulary.definitions :=
  vocabulary_callInvariant (P := fun v => definitions <+: v.definitions) fun hv h => by
    obtain ⟨-, -, -, -, rfl⟩ := Vocabulary.register_eq h
    exact hv.trans (List.prefix_append _ _)

/-- Symbols and semantics are only added. -/
theorem ModuleCall.grows {α : Type} {x : Registration α} {ws : Workspace} (h : ModuleCall x)
    (hws : Built ws) : ws.draft.symbols.length ≤ (x.perform ws).2.draft.symbols.length ∧
      ws.draft.vocabulary.definitions <+: (x.perform ws).2.draft.vocabulary.definitions := by
  have hnames := keepsNames_callInvariant ws.draft
  have hdefinitions := definitions_callInvariant ws.draft.vocabulary.definitions
  exact ⟨(h.keeps (fun _ => hnames) (Workspace.keeps_connectivesOnce hnames.toPlainStepInvariant) ws
      ⟨hws.consistent, .refl _⟩).2.length_le,
    (h.keeps (fun _ => hdefinitions) (Workspace.keeps_connectivesOnce hdefinitions.toPlainStepInvariant) ws
      ⟨hws.consistent, List.prefix_rfl⟩).2⟩

/-! ### What is shared -/

theorem Built.separators_lt {ws : Workspace} (h : Built ws) :
    ∀ X ∈ separators ws.connectives, X.index < ws.draft.symbols.length := by
  cases hknown : ws.connectives with
  | none => simp [separators]
  | some c =>
    have hnamed := h.connected.2 c hknown
    simp only [separators, Option.map_some, Option.getD_some, List.forall_mem_cons, List.not_mem_nil,
      false_imp_iff, implies_true, and_true]
    exact ⟨hnamed.lt_length .and, hnamed.lt_length .or, hnamed.lt_length .comma⟩

/-- The registration changes nothing but the draft. -/
def OnDraft {α : Type} (x : Registration α) : Prop :=
  ∀ ws, (x.perform ws).2 = { ws with draft := (x.perform ws).2.draft }

theorem onDraft_within {α : Type} (x : Change Draft α) :
    OnDraft (x.within Workspace.draft fun ws d => { ws with draft := d }) := fun _ => rfl

theorem onDraft_semantic (definition : Semantic) : OnDraft (Registration.semantic definition) := by
  intro ws
  unfold Registration.semantic
  rw [perform_bind, perform_get]
  dsimp only
  split
  · split <;> rfl
  · exact onDraft_within _ ws

/-- A registration that is settled leaves what is shared registered. -/
theorem Settled.rooted {α : Type} {ws : Workspace} {x : Registration α} {B C : Prop}
    {R : α → Workspace → Prop} (h : Settled ws x B C R) (hws : Rooted 0 ws)
    (hR : ∀ a t, R a t → Rooted 0 t) : Rooted 0 (x.perform ws).2 := by
  rcases h with ⟨-, e, hrefused⟩ | ⟨-, a, hdecided⟩
  · rw [hrefused]
    exact hws
  · have hx := hdecided ws rfl
    cases hp : x.perform ws with
    | mk outcome t =>
      rw [hp] at hx
      cases outcome with
      | error e => exact { hx.2 with count := Nat.zero_le _ }
      | ok b => exact hR a t hx.2.2

namespace Workspace

variable {ws : Workspace}

theorem rooted_conjunction (hws : Rooted 0 ws)
    (hseparators : ∀ X ∈ separators ws.connectives, X.index < ws.draft.symbols.length)
    (operand : SymbolId) : Rooted 0 ((conjunction operand).perform ws).2 := by
  cases hknown : ws.conjunctionRoot? operand with
  | none => exact (conjunction_settled hws hseparators hknown).rooted hws fun _ _ h => h.1
  | some root =>
    rw [conjunction_known hknown]
    exact hws

theorem rooted_negation (hws : Rooted 0 ws) (conflicting : Option SymbolId) :
    Rooted 0 ((negation conflicting).perform ws).2 := by
  cases hknown : ws.negations.lookup conflicting with
  | none => exact (negation_settled hws hknown).rooted hws fun _ _ h => h.1
  | some set =>
    rw [negation_known hknown]
    exact hws

theorem rooted_newCategory (hws : Rooted 0 ws)
    (hseparators : ∀ X ∈ separators ws.connectives, X.index < ws.draft.symbols.length)
    (spec : CategoryWords) : Rooted 0 ((newCategory spec).perform ws).2 :=
  (newCategory_settled hws hseparators spec).rooted hws fun _ _ h => h.1

theorem rooted_category (hws : Rooted 0 ws)
    (hseparators : ∀ X ∈ separators ws.connectives, X.index < ws.draft.symbols.length)
    (spec : CategoryWords) : Rooted 0 ((category spec).perform ws).2 := by
  cases hknown : ws.category? spec.singular with
  | none =>
    rw [category_unknown hknown]
    exact rooted_newCategory hws hseparators spec
  | some c =>
    rw [category_known hknown]
    exact hws

end Workspace

/-- A call that leaves all but the draft alone only adds to that. -/
theorem ModuleCall.rooted_of_onDraft {α : Type} {x : Registration α} {ws : Workspace}
    (h : ModuleCall x) (hx : OnDraft x) (hbuilt : Built ws) (hws : Rooted 0 ws) :
    Rooted 0 (x.perform ws).2 := by
  obtain ⟨hsymbols, hdefinitions⟩ := h.grows hbuilt
  rw [hx ws]
  exact hws.mono hsymbols hdefinitions

/-- A call of each kind keeps what is shared registered. -/
theorem ModuleCall.rooted {α : Type} {x : Registration α} {ws : Workspace} (h : ModuleCall x)
    (hbuilt : Built ws) (hws : Rooted 0 ws) : Rooted 0 (x.perform ws).2 := by
  have hseparators := hbuilt.separators_lt
  have hdraft := fun hx => h.rooted_of_onDraft hx hbuilt hws
  cases h with
  | removeUnused policy => exact hdraft (onDraft_within _)
  | finish o => exact hdraft (onDraft_within _)
  | register call =>
    cases call with
    | conjunction operand => exact Workspace.rooted_conjunction hws hseparators operand
    | negation conflicting => exact Workspace.rooted_negation hws conflicting
    | category spec => exact Workspace.rooted_category hws hseparators spec
    | newCategory spec => exact Workspace.rooted_newCategory hws hseparators spec
    | semantic definition => exact hdraft (onDraft_semantic definition)
    | newSymbol | addRule | addBinaryRule | addWord | newTermSequence | addVerb | addPronoun
    | newPhrase | newSemantic | newEntityCategory => exact hdraft (onDraft_within _)

/-- What is shared is registered in every workspace that calls lead to. -/
theorem Built.rooted {ws : Workspace} (h : Built ws) : Rooted 0 ws := by
  induction h with
  | init => exact rooted_empty
  | call before hcall ih => exact hcall.rooted before ih

end QueryGrammar
