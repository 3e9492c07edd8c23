import QueryGrammar.Proofs.Finish.Consistent
import QueryGrammar.Proofs.Finish.Edits
import QueryGrammar.Proofs.Rule.Costs
/-!
Drafts that gain rules. Where no cost has a minus sign a symbol that is given a rule has it
afterwards, whether it had one that compares equal or not.
-/
namespace QueryGrammar.Draft

variable {d e f : Draft}

/-- No cost in the rules of the draft has a minus sign. -/
def Unsigned (d : Draft) : Prop := ∀ X, ∀ r ∈ d.rules X, r.Unsigned

/-- The rules of a live symbol are those it had and the one it is given, if one that compares equal to
it is the same rule. -/
theorem mem_rules_appendRule_of_lacks {id : SymbolId} {r : Rule} (hid : id ∈ d.liveSymbols)
    (hhas : d.lacks id r = false → r ∈ d.rules id) {X : SymbolId} {q : Rule} :
    q ∈ (d.appendRule id r).rules X ↔ q ∈ d.rules X ∨ X = id ∧ q = r := by
  have hindex : id.index = X.index ↔ X = id := by
    cases id
    cases X
    simp [eq_comm]
  unfold appendRule
  split
  next =>
    rw [mem_rules_modifyRules (g := (· ++ [r]))]
    simp only [hindex]
    by_cases hX : X = id
    · subst hX
      simp [hid]
    · simp only [hX, if_false, false_and, or_false, and_iff_right_iff_imp]
      exact live_of_mem_rules
  next hlacks =>
    have hmem := hhas (by simpa using hlacks)
    exact (or_iff_left_of_imp fun h => h.1 ▸ h.2 ▸ hmem).symm

theorem mem_rules_appendRule {id : SymbolId} {r : Rule} (hid : id ∈ d.liveSymbols)
    (hd : d.Unsigned) (hr : r.Unsigned) {X : SymbolId} {q : Rule} :
    q ∈ (d.appendRule id r).rules X ↔ q ∈ d.rules X ∨ X = id ∧ q = r := by
  refine mem_rules_appendRule_of_lacks hid fun hhas => ?_
  obtain ⟨p, hp, heq⟩ : ∃ p ∈ d.rules id, (r == p) = true := by
    simpa [lacks, List.contains_eq_any_beq] using hhas
  rw [Rule.eq_of_beq hr (hd id p hp) heq]
  exact hp

/-- `e` is `d` with these rules added. -/
structure Gains (added : SymbolId → Rule → Prop) (d e : Draft) : Prop where
  live : ∀ X, X ∈ e.liveSymbols ↔ X ∈ d.liveSymbols
  names : ∀ X, e.symbolName X = d.symbolName X
  rules : ∀ X r, r ∈ e.rules X ↔ r ∈ d.rules X ∨ added X r
  vocabulary : e.vocabulary = d.vocabulary
  entityCategories : e.entityCategories = d.entityCategories
  prunedSemantics : e.prunedSemantics = d.prunedSemantics

variable {added more : SymbolId → Rule → Prop}

theorem Gains.refl (d : Draft) : Gains (fun _ _ => False) d d :=
  ⟨fun _ => Iff.rfl, fun _ => rfl, by simp, rfl, rfl, rfl⟩

theorem Gains.trans (hde : Gains added d e) (hef : Gains more e f) :
    Gains (fun X r => added X r ∨ more X r) d f where
  live X := (hef.live X).trans (hde.live X)
  names X := (hef.names X).trans (hde.names X)
  rules X r := by rw [hef.rules, hde.rules, or_assoc]
  vocabulary := hef.vocabulary.trans hde.vocabulary
  entityCategories := hef.entityCategories.trans hde.entityCategories
  prunedSemantics := hef.prunedSemantics.trans hde.prunedSemantics

theorem Gains.congr (h : Gains added d e) (heq : ∀ X r, added X r ↔ more X r) : Gains more d e :=
  { h with rules := fun X r => by rw [h.rules, heq] }

theorem Gains.unsigned (h : Gains added d e) (hd : d.Unsigned)
    (hadded : ∀ X r, added X r → r.Unsigned) : e.Unsigned := by
  intro X r hr
  rcases (h.rules X r).mp hr with hr | hr
  · exact hd X r hr
  · exact hadded X r hr

theorem gains_appendRule {id : SymbolId} {r : Rule} (hid : id ∈ d.liveSymbols) (hd : d.Unsigned)
    (hr : r.Unsigned) : Gains (fun X q => X = id ∧ q = r) d (d.appendRule id r) := by
  have hadds : AddsRules (fun _ _ => True) d (d.appendRule id r) := addsRules_appendRule trivial
  refine ⟨fun X => hadds.mem_liveSymbols_iff, hadds.symbolName_eq,
    fun X q => mem_rules_appendRule hid hd hr, ?_, ?_, ?_⟩
  all_goals rw [hadds.rest]

end QueryGrammar.Draft
