import QueryGrammar.Proofs.Draft.Shaped
import QueryGrammar.Proofs.Finish.Idempotent
import QueryGrammar.Proofs.Finish.Shown
import QueryGrammar.Proofs.Finish.Stored
/-!
The stages of finishing on a draft that has been through them. Where every terminal is one token
nothing is split, and the search for insertions does not see edits.
-/
namespace QueryGrammar

theorem Cost.Nonnegative.beq_self {x : Float} (h : Nonnegative x) : (x == x) = true :=
  (beq_iff_amount h h).mpr rfl

namespace Draft

variable {d e : Draft}

/-! ### Splitting -/

section Single

variable (hsingle : ∀ X, ∀ r ∈ d.rules X, ∀ term text, r.expansion = .terminal term text →
  Text.wordsOf term = [term])
include hsingle

theorem tokenizeRules_of_single {X : SymbolId} {rules : List Rule} (hrules : rules ⊆ d.rules X) :
    d.tokenizeRules rules = (rules, 0, d) := by
  induction rules with
  | nil => rfl
  | cons r rules ih =>
    have hnone : d.tokenizeRule? r = none := by
      unfold tokenizeRule?
      split
      next term text hx => simp [hsingle X r (hrules List.mem_cons_self) term text hx]
      next => rfl
    have hrest := ih fun q hq => hrules (List.mem_cons_of_mem r hq)
    simp only [tokenizeRules, hnone, hrest]

omit hsingle in
theorem replaceRules_self {X : SymbolId} (hX : X ∈ d.liveSymbols) :
    (d.modifySymbol X fun s => { s with rules := d.rules X }) = d := by
  obtain ⟨s, hs⟩ := mem_liveSymbols_iff.mp hX
  have hsymbols :
      (d.modifySymbol X fun s => { s with rules := d.rules X }).symbols = d.symbols := by
    apply List.ext_getElem?
    intro i
    rw [getElem?_modifyRules d X fun _ => d.rules X]
    by_cases hi : X.index = i
    · subst hi
      rw [(get?_eq_some_iff.mp hs).1, rules_of_get? hs]
      simp
    · simp [hi]
  calc (d.modifySymbol X fun s => { s with rules := d.rules X })
      = { d with symbols :=
          (d.modifySymbol X fun s => { s with rules := d.rules X }).symbols } := rfl
    _ = d := by rw [hsymbols]

/-- Where every terminal is one token, nothing is split. -/
theorem tokenize_of_single : d.tokenize = (0, d) := by
  have hone : ∀ X ∈ d.liveSymbols, tokenizeSymbol (0, d) X = (0, d) := by
    intro X hX
    unfold tokenizeSymbol
    rw [tokenizeRules_of_single hsingle (List.Subset.refl (d.rules X))]
    exact congrArg (Prod.mk 0) (replaceRules_self hX)
  suffices ∀ ids : List SymbolId, ids ⊆ d.liveSymbols →
      ids.foldl tokenizeSymbol (0, d) = (0, d) from this d.liveSymbols (List.Subset.refl _)
  intro ids hids
  induction ids with
  | nil => rfl
  | cons X ids ih =>
    rw [List.foldl_cons, hone X (hids List.mem_cons_self)]
    exact ih fun Y hY => hids (List.mem_cons_of_mem X hY)

end Single

/-! ### The search -/

/-- An edit that is added to a symbol with rules. -/
def AddedEdit (d : Draft) (X : SymbolId) (r : Rule) : Prop := r.isEdit = true ∧ d.rules X ≠ []

theorem AddsRules.mono {P Q : SymbolId → Rule → Prop} (h : AddsRules P d e)
    (hPQ : ∀ X r, P X r → Q X r) : AddsRules Q d e where
  content id s hs := by
    obtain ⟨added, he, hadded⟩ := h.content id s hs
    exact ⟨added, he, fun r hr => hPQ id r (hadded r hr)⟩
  length_eq := h.length_eq
  rest := h.rest

/-- Which symbols are live depends only on which have been pruned. -/
theorem liveSymbols_eq_filterMap (d : Draft) : d.liveSymbols =
    (d.symbols.map (·.pruned)).zipIdx.filterMap
      fun (pruned, i) => if pruned then none else some ⟨i⟩ := by
  rw [liveSymbols, List.zipIdx_map, List.filterMap_map]
  rfl

theorem AddsRules.liveSymbols_eq {P : SymbolId → Rule → Prop} (h : AddsRules P d e) :
    e.liveSymbols = d.liveSymbols := by
  have hpruned : e.symbols.map (·.pruned) = d.symbols.map (·.pruned) :=
    h.map_symbols fun _ _ => rfl
  rw [liveSymbols_eq_filterMap, hpruned, ← liveSymbols_eq_filterMap]

/-- Searches that do the same in a pass do the same in any number of passes. -/
theorem improveRounds_congr (h : ∀ best, e.improve best = d.improve best) (rounds : Nat)
    (best : Candidates) : e.improveRounds rounds best = d.improveRounds rounds best := by
  induction rounds generalizing best with
  | zero => rfl
  | succ rounds ih => simp only [improveRounds, h, ih]

section Search

variable (h : AddsRules d.AddedEdit d e)
include h

/-- The first rule of a symbol stays the first, so what the symbol shows stays the same. -/
theorem AddsRules.shownText_eq (depth : Nat) (path : List SymbolId) (X : SymbolId) :
    e.shownText depth path X = d.shownText depth path X := by
  induction depth generalizing path X with
  | zero => rfl
  | succ depth ih =>
    have hhead : e.firstExpansion X = d.firstExpansion X := by
      obtain ⟨added, hrules, hadded⟩ := h.rules X
      unfold firstExpansion
      rw [hrules]
      by_cases hnone : d.rules X = []
      · have hnothing : added = [] := by
          apply List.eq_nil_iff_forall_not_mem.mpr
          intro r hr
          exact (hadded r hr).2 hnone
        rw [hnothing, List.append_nil]
      · rw [List.head?_append_of_ne_nil _ hnone]
    have hinner : e.shownText depth (X :: path) = d.shownText depth (X :: path) :=
      funext fun Y => ih (X :: path) Y
    simp only [shownText_succ, hhead, hinner]

theorem AddsRules.candidateBy_eq (best : Candidates) (X : SymbolId) (r : Rule) :
    e.candidateBy best X r = d.candidateBy best X r := by
  have hvocabulary : e.vocabulary = d.vocabulary := by rw [h.rest]
  have hshown : e.shownText (e.symbols.length + 1) [] = d.shownText (d.symbols.length + 1) [] := by
    rw [h.length_eq]
    exact funext fun Y => h.shownText_eq _ [] Y
  unfold candidateBy
  rw [hvocabulary, hshown, h.symbolName_eq]

theorem AddsRules.improveBy_eq (X : SymbolId) (state : Candidates × Bool) (r : Rule) :
    e.improveBy X state r = d.improveBy X state r := by
  unfold improveBy
  rw [h.candidateBy_eq]

/-- A pass tries the same rules: those that are added are edits. -/
theorem AddsRules.improve_eq (best : Candidates) : e.improve best = d.improve best := by
  have hedits : ∀ (X : SymbolId) (added : List Rule) (state : Candidates × Bool),
      (∀ r ∈ added, r.isEdit = true) → added.foldl (e.improveBy X) state = state := by
    intro X added
    induction added with
    | nil => exact fun state _ => rfl
    | cons r added ih =>
      intro state hadded
      have hskip : e.improveBy X state r = state := by
        unfold improveBy
        rw [if_pos (hadded r List.mem_cons_self)]
      rw [List.foldl_cons, hskip]
      exact ih state fun q hq => hadded q (List.mem_cons_of_mem r hq)
  have hsymbol : ∀ (state : Candidates × Bool) (X : SymbolId),
      (e.rules X).foldl (e.improveBy X) state = (d.rules X).foldl (d.improveBy X) state := by
    intro state X
    obtain ⟨added, hrules, hadded⟩ := h.rules X
    rw [hrules, List.foldl_append, hedits X added _ fun r hr => (hadded r hr).1]
    have hsame : e.improveBy X = d.improveBy X :=
      funext fun state => funext fun r => h.improveBy_eq X state r
    rw [hsame]
  unfold improve
  rw [h.liveSymbols_eq]
  simp only [hsymbol]

/-- The search does not see added edits. -/
theorem AddsRules.candidates_eq : e.candidates = d.candidates := by
  rw [candidates, candidates, h.liveSymbols_eq, improveRounds_congr h.improve_eq]

end Search

end Draft

end QueryGrammar
