import QueryGrammar.Proofs.Finish.Added
import QueryGrammar.Proofs.Finish.Shown
import QueryGrammar.Proofs.Finish.Stable
import QueryGrammar.Proofs.Workspace.SingleTokens
/-!
The search for insertions before and after terminals are split. A rule that is split shows what it
did, since it names its text and no longer asks its parts, and no rule of a made symbol has an
insertion cost. So both searches do the same in every pass; that after the split may make more
passes, but the search before it ends below its own bound.
-/
namespace QueryGrammar

/-- The rule has a terminal without a word. -/
def Rule.isEmptyTerminal (r : Rule) : Bool :=
  match r.expansion with
  | .terminal term _ => (Text.wordsOf term).isEmpty
  | _ => false

theorem Rule.wordsOf_ne_nil {r : Rule} (h : r.isEmptyTerminal = false) {term : String}
    {text : DisplayText} (hx : r.expansion = .terminal term text) : Text.wordsOf term ≠ [] := by
  simpa [isEmptyTerminal, hx] using h

open Change

namespace Draft

variable {d e : Draft} {K : SymbolId → List String → Prop} {best : Candidates} {X : SymbolId}
  {r r' : Rule}

theorem segments_wholeText (term : String) (text : DisplayText) (shown : List Segment) :
    (wholeText term text).segments shown = text.segments [.literal term] := by
  cases text <;> rfl

/-- A made symbol is tried in vain. -/
theorem MadeRule.candidateBy_eq (h : e.MadeRule r) : e.candidateBy best X r = none := by
  cases h <;> rfl

section Split

variable (h : Tokenized K d d.liveSymbols e)
include h

/-- The made symbols come after those from before. -/
theorem Tokenized.exists_liveSymbols_eq : ∃ made, e.liveSymbols = d.liveSymbols ++ made ∧
    ∀ Y ∈ made, Y ∈ e.liveSymbols ∧ d.symbols.length ≤ Y.index := by
  have hpruned : (e.symbols.map (·.pruned)).take d.symbols.length = d.symbols.map (·.pruned) := by
    apply List.ext_getElem?
    intro i
    rw [List.getElem?_take]
    split
    next hi =>
      obtain ⟨rules, hs, -⟩ := h.content ⟨i⟩ _ (List.getElem?_eq_getElem hi)
      simp [hs, hi]
    next hi => simp [Nat.not_lt.mp hi]
  have hsplit := List.take_append_drop d.symbols.length (e.symbols.map (·.pruned))
  rw [hpruned] at hsplit
  have hmade := e.liveSymbols_eq_filterMap
  rw [← hsplit, List.zipIdx_append, List.filterMap_append, ← liveSymbols_eq_filterMap] at hmade
  refine ⟨_, hmade, fun Y hY => ⟨hmade ▸ List.mem_append_right _ hY, ?_⟩⟩
  obtain ⟨⟨pruned, i⟩, hmem, hi⟩ := List.mem_filterMap.mp hY
  simp only [Option.ite_none_left_eq_some, Option.some.injEq] at hi
  obtain ⟨-, rfl⟩ := hi
  simpa using List.le_snd_of_mem_zipIdx hmem

variable (hd : d.Consistent)
  (hfull : ∀ X ∈ d.liveSymbols, ∀ r ∈ d.rules X, r.isEmptyTerminal = false)
include hd hfull

/-- What is shown does not change: the rule that is split shows its term as a whole. -/
theorem Tokenized.shownText_eq (hX : X ∈ d.liveSymbols) (depth : Nat) (path : List SymbolId) :
    e.shownText depth path X = d.shownText depth path X := by
  induction depth generalizing path X with
  | zero => rfl
  | succ depth ih =>
    have hrules := h.rules hX
    cases hr : d.rules X with
    | nil =>
      rw [hr] at hrules
      simp [shownText_succ, firstExpansion, hr, List.forall₂_nil_left_iff.mp hrules]
    | cons r rules =>
      have hmem : r ∈ d.rules X := hr ▸ List.mem_cons_self
      rw [hr] at hrules
      obtain ⟨r', rules', hsplits, -, hr'⟩ := List.forall₂_cons_left_iff.mp hrules
      cases hsplits with
      | same =>
        have hparts : ∀ Y ∈ r.expansion.parts,
            e.shownText depth (X :: path) Y = d.shownText depth (X :: path) Y :=
          fun Y hY => ih ((hd.rules X r hmem).parts Y hY) (X :: path)
        cases hx : r.expansion with
        | sequence first second text =>
          rw [hx] at hparts
          have hflat : (first :: second.toList).flatMap (e.shownText depth (X :: path)) =
              (first :: second.toList).flatMap (d.shownText depth (X :: path)) :=
            List.flatMap_congr hparts
          simp only [shownText_succ, firstExpansion, hr, hr', List.head?_cons, Option.map_some, hx,
            hflat]
        | _ => simp [shownText_succ, firstExpansion, hr, hr', hx]
      | nothing hterminal hwords =>
        exact absurd hwords (Rule.wordsOf_ne_nil (hfull X hX r hmem) hterminal)
      | row hterminal => simp [shownText_succ, firstExpansion, hr, hr', hterminal, segments_wholeText]

theorem Tokenized.candidateBy_eq (hX : X ∈ d.liveSymbols) (hr : r ∈ d.rules X)
    (hsplits : e.Splits d.symbols.length K r r') :
    e.candidateBy best X r' = d.candidateBy best X r := by
  have hname := h.symbolName_eq hX
  have hvocabulary : e.vocabulary = d.vocabulary := by rw [h.rest]
  have hshown : ∀ Y ∈ r.expansion.parts, e.shownText (e.symbols.length + 1) [] Y =
      d.shownText (d.symbols.length + 1) [] Y := by
    intro Y hY
    rw [h.shownText_eq hd hfull ((hd.rules X r hr).parts Y hY)]
    exact shownText_eq_of_length_lt (Nat.lt_succ_of_le h.length_le) Y
  cases hsplits with
  | same =>
    cases hx : r.expansion with
    | sequence first second text =>
      rw [hx] at hshown
      have hflat : (first :: second.toList).flatMap (e.shownText (e.symbols.length + 1) []) =
          (first :: second.toList).flatMap (d.shownText (d.symbols.length + 1) []) :=
        List.flatMap_congr hshown
      simp only [candidateBy, hx, hname, hvocabulary, hflat]
    | _ => simp only [candidateBy, hx, hname, hvocabulary]
  | nothing hterminal hwords =>
    exact absurd hwords (Rule.wordsOf_ne_nil (hfull X hX r hr) hterminal)
  | row hterminal => simp only [candidateBy, hterminal, hname, hvocabulary, segments_wholeText]

/-- The rules of a symbol from before are tried to the same effect. -/
theorem Tokenized.foldl_improveBy_eq (hX : X ∈ d.liveSymbols) (state : Candidates × Bool) :
    (e.rules X).foldl (e.improveBy X) state = (d.rules X).foldl (d.improveBy X) state := by
  suffices ∀ {rules rules' : List Rule}, List.Forall₂ (e.Splits d.symbols.length K) rules rules' →
      rules ⊆ d.rules X → ∀ state,
      rules'.foldl (e.improveBy X) state = rules.foldl (d.improveBy X) state from
    this (h.rules hX) (List.Subset.refl _) state
  intro rules rules' hrules
  induction hrules with
  | nil => exact fun _ _ => rfl
  | @cons r r' rules rules' hsplits _ ih =>
    intro hsubset state
    have hedit : r'.isEdit = r.isEdit := by rw [Rule.isEdit, Rule.isEdit, hsplits.edit_eq]
    have hone : e.improveBy X state r' = d.improveBy X state r := by
      unfold improveBy
      rw [hedit, h.candidateBy_eq hd hfull hX (hsubset List.mem_cons_self) hsplits]
    rw [List.foldl_cons, List.foldl_cons, hone]
    exact ih (fun q hq => hsubset (List.mem_cons_of_mem r hq)) _

/-- A pass does the same before and after. -/
theorem Tokenized.improve_eq (hK : KnowsLive K d) (best : Candidates) :
    e.improve best = d.improve best := by
  obtain ⟨made, hlive, hmade⟩ := h.exists_liveSymbols_eq
  have hvain : ∀ Y ∈ made, ∀ state, (e.rules Y).foldl (e.improveBy Y) state = state := by
    intro Y hY state
    obtain ⟨r, hrules, hrule⟩ := h.rules_made hK (hmade Y hY).1 (hmade Y hY).2
    rw [hrules, List.foldl_cons, List.foldl_nil, improveBy, hrule.candidateBy_eq]
    exact ite_self _
  rw [improve, improve, hlive, List.foldl_append]
  have hold : d.liveSymbols.foldl (fun state id => (e.rules id).foldl (e.improveBy id) state)
      (best, false) = d.liveSymbols.foldl
        (fun state id => (d.rules id).foldl (d.improveBy id) state) (best, false) :=
    List.foldl_ext _ _ _ fun state X hX => h.foldl_improveBy_eq hd hfull hX state
  rw [hold]
  exact List.foldlRecOn (motive := (· = _)) made _ rfl fun state hstate Y hY =>
    (hvain Y hY state).trans hstate

/-- Both searches end with the same pass, since the first ends below its own bound. -/
theorem Tokenized.candidates_eq (hK : KnowsLive K d) (hsearch : d.Searchable) :
    e.candidates = d.candidates := by
  obtain ⟨k, hk, hchanged, hlast, hfound⟩ := hsearch.exists_unchanged
  obtain ⟨made, hlive, -⟩ := h.exists_liveSymbols_eq
  have hmore : k - 0 < e.liveSymbols.length + 1 := by
    rw [hlive, List.length_append]
    omega
  rw [candidates, improveRounds_congr (h.improve_eq hd hfull hK), hfound]
  exact improveRounds_afterPasses (Nat.zero_le k) hmore hchanged hlast

end Split

theorem Underway.searchable (h : Underway d) : d.Searchable := by
  induction h with
  | built hcalls => exact hcalls.searchable
  | filled _ ih => exact StopWords.keeps_fill searchable_stepInvariant _ ih
  | trimmed _ hstart ih => exact ih.trimmed hstart

/-- Splitting the terminals of a draft without made symbols and without empty terminals leaves every
symbol the candidate it had, and gives none to the symbols that are made. -/
theorem Underway.candidates_tokenize (h : Underway d)
    (hnames : ∀ X ∈ d.liveSymbols, (d.symbolName X).toList.head? ≠ some '<')
    (hfull : ∀ X ∈ d.liveSymbols, ∀ r ∈ d.rules X, r.isEmptyTerminal = false) :
    d.tokenize.2.candidates = d.candidates ∧
      ∀ X ∈ d.tokenize.2.liveSymbols,
        d.symbols.length ≤ X.index ∨ (d.tokenize.2.symbolName X).toList.head? = some '<' →
        d.tokenize.2.candidates.lookup X = none := by
  have hd := h.consistent
  have htok := tokenized_tokenize (hd.knowsNone hnames) fun X r hr => (hd.rules X r hr).term
  have hsame := htok.candidates_eq hd hfull (fun _ _ h => h.elim) h.searchable
  refine ⟨hsame, fun X _ hmade => ?_⟩
  rw [hsame]
  by_contra hsome
  obtain ⟨c, hc⟩ := Option.ne_none_iff_exists'.mp hsome
  have hlive : X ∈ d.liveSymbols := (d.sourced_candidates.lookup hc).live
  rcases hmade with hge | hname
  · obtain ⟨s, hs⟩ := mem_liveSymbols_iff.mp hlive
    exact absurd hge (List.getElem?_eq_some_iff.mp (get?_eq_some_iff.mp hs).1).1.not_ge
  · rw [htok.symbolName_eq hlive] at hname
    exact hnames X hlive hname

/-- Thanks of two words, said twice. -/
def courtesies : Registration Unit := do
  let thanks ← Registration.newSymbol ["thanks"]
  Registration.addRule thanks { rhs := .terminal "thank you" .verbatim, insertionCost := some 0.5 }
  Registration.addRule start (.binary thanks thanks)

theorem candidates_tokenize_courtesies : ∃ d : Draft, Underway d ∧
    (∀ X ∈ d.liveSymbols, (d.symbolName X).toList.head? ≠ some '<') ∧
    (∀ X ∈ d.liveSymbols, ∀ r ∈ d.rules X, r.isEmptyTerminal = false) ∧
    d.liveSymbols.length < d.tokenize.2.liveSymbols.length ∧
    d.tokenize.2.candidates = d.candidates ∧
    (d.candidates.lookup ⟨1⟩).map (·.text) = some [.literal "thank you"] := by
  have hcalls : Keeps Built courtesies :=
    .bind (ModuleCall.register (.newSymbol _)).keepsBuilt fun _ =>
      .bind (ModuleCall.register (.addRule _ _)).keepsBuilt fun _ =>
        (ModuleCall.register (.addRule _ _)).keepsBuilt
  have hunderway := Underway.built (hcalls {} .init)
  have hnames : ∀ X ∈ (courtesies.perform {}).2.draft.liveSymbols,
      ((courtesies.perform {}).2.draft.symbolName X).toList.head? ≠ some '<' := by
    decide +kernel
  have hfull : ∀ X ∈ (courtesies.perform {}).2.draft.liveSymbols,
      ∀ r ∈ (courtesies.perform {}).2.draft.rules X, r.isEmptyTerminal = false := by
    decide +kernel
  refine ⟨_, hunderway, hnames, hfull, ?_, (hunderway.candidates_tokenize hnames hfull).1, ?_⟩
  · decide +kernel
  · decide +kernel

end Draft

end QueryGrammar
