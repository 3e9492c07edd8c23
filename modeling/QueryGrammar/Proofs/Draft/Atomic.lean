import QueryGrammar.Proofs.Draft.Lexical
/-!
Calls that register one thing are all or nothing. Most of them check before they change anything; a
lexical symbol is there before its rules are checked, and it is only because those checks cannot
fail any more that a refused call leaves the draft as it was.
-/
namespace QueryGrammar.Draft

/-- The calls that register a symbol, a rule, a semantic or an entity category, each by itself. -/
inductive PrimitiveCall : {α : Type} → Change Draft α → Prop where
  | newSymbol (parts : List String) : PrimitiveCall (Change.call (·.newSymbol parts))
  | newSemantic (definition : Semantic) : PrimitiveCall (Change.call (·.newSemantic definition))
  | newEntityCategory (name : String) (instances : List String) :
      PrimitiveCall (Change.call (·.newEntityCategory name instances))
  | addRule (id : SymbolId) (p : Proposal) :
      PrimitiveCall (Change.call fun d => return ((), ← d.addRule id p))
  | addBinaryRule (id : SymbolId) (p : Proposal) :
      PrimitiveCall (Change.call fun d => return ((), ← d.addBinaryRule id p))
  | registerTermSequence (t : TermSequence) : PrimitiveCall (registerTermSequence t)
  | registerWord (name : String) (accepted substituted : List String) (cost : Option Float) :
      PrimitiveCall (registerWord name accepted substituted cost)
  | registerVerb (v : Verb) : PrimitiveCall (registerVerb v)
  | registerPronoun (p : Pronoun) : PrimitiveCall (registerPronoun p)
  | registerPhrase (name : String) (parts : List SymbolId) (text : DisplayText)
      (semantic : Option Forest) : PrimitiveCall (registerPhrase name parts text semantic)

variable {α : Type} {d e : Draft} {err : BuildError}

theorem eq_of_refused_call {f : Draft → Outcome (α × Draft)}
    (h : (Change.call f).perform d = (.error err, e)) : e = d := by
  rw [Change.perform_call] at h
  cases hf : f d with
  | error _ =>
    rw [hf] at h
    exact (Prod.mk.inj h).2.symm
  | ok p =>
    rw [hf] at h
    cases h

theorem eq_of_refused_registerLexical {name : String} {entries : List LexicalEntry}
    {semantic : Option Forest}
    (h : (registerLexical name entries semantic).perform d = (.error err, e)) : e = d := by
  rw [perform_registerLexical] at h
  cases hcheck : d.checkLexical name entries semantic with
  | error _ =>
    rw [hcheck] at h
    exact (Prod.mk.inj h).2.symm
  | ok kept =>
    rw [hcheck] at h
    cases hnew : d.newSymbolOf true [name] with
    | error _ =>
      rw [hnew] at h
      exact (Prod.mk.inj h).2.symm
    | ok p =>
      rw [hnew] at h
      cases h

theorem eq_of_refused_registerPhrase {name : String} {parts : List SymbolId} {text : DisplayText}
    {semantic : Option Forest}
    (h : (registerPhrase name parts text semantic).perform d = (.error err, e)) : e = d := by
  cases hcheck : d.checkPhrase name parts semantic with
  | error _ =>
    unfold registerPhrase at h
    simp only [Change.perform_bind, Change.perform_get, Change.perform_ofOutcome, hcheck] at h
    exact (Prod.mk.inj h).2.symm
  | ok u =>
    obtain ⟨owner, x, -, hperform⟩ := perform_registerPhrase text hcheck
    rw [hperform] at h
    cases hnew : d.newSymbolOf true [name] with
    | error _ =>
      rw [hnew] at h
      exact (Prod.mk.inj h).2.symm
    | ok p =>
      rw [hnew] at h
      cases h

/-- A call that registers one thing and is refused leaves the draft as it was, whatever the draft
is: names, rules, semantics, entity categories and pending stop words. -/
theorem PrimitiveCall.eq_of_refused {x : Change Draft α} (hx : PrimitiveCall x)
    (h : x.perform d = (.error err, e)) : e = d := by
  cases hx with
  | newSymbol | newSemantic | newEntityCategory | addRule | addBinaryRule =>
    exact eq_of_refused_call h
  | registerTermSequence | registerWord | registerVerb | registerPronoun =>
    exact eq_of_refused_registerLexical h
  | registerPhrase => exact eq_of_refused_registerPhrase h

/-- A draft whose only word has been pruned; its name is still taken. -/
def prunedWord : Draft where
  symbols := [{ name := startName }, { name := "[word]", isTermSequence := true, pruned := true }]

theorem eq_of_refused_prunedWord : ∃ e,
    (registerWord "word" ["word"] [] none).perform prunedWord =
      (.error (.duplicateSymbol "[word]"), e) ∧ e = prunedWord := by
  have hrefused : (registerWord "word" ["word"] [] none).perform prunedWord =
      (.error (.duplicateSymbol "[word]"), prunedWord) := rfl
  exact ⟨_, hrefused, PrimitiveCall.eq_of_refused (.registerWord ..) hrefused⟩

end QueryGrammar.Draft
