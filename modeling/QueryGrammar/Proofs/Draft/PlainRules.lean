import QueryGrammar.Proofs.Draft.Enlarged
/-!
Plain rules, as families, negations and categories have them: over one or two symbols, without costs.
Such a rule is accepted for a symbol of the additions exactly if the symbols it reads are live.
-/
namespace QueryGrammar

/-- A proposal over these symbols that carries no cost. -/
structure Proposal.Plain (p : Proposal) (ids : List SymbolId) : Prop where
  rhs : p.rhs = .symbols ids
  length : ids.length = 1 ∨ ids.length = 2
  insertionCost : p.insertionCost = none
  transpositionCost : p.transpositionCost = none
  closed : ∀ i ∈ p.noInsertion, i < ids.length

namespace Proposal

variable {p : Proposal} {ids : List SymbolId}

theorem plain_unary (part : SymbolId) : (unary part).Plain [part] :=
  ⟨rfl, Or.inl rfl, rfl, rfl, by simp [unary]⟩

theorem plain_binary (first second : SymbolId) : (binary first second).Plain [first, second] :=
  ⟨rfl, Or.inr rfl, rfl, rfl, by simp [binary]⟩

theorem Plain.fixed (h : p.Plain ids) (forest : Forest) : (p.fixed forest).Plain ids := { h with }

theorem Plain.deferred (h : p.Plain ids) (chain : Chain) : (p.deferred chain).Plain ids := { h with }

theorem Plain.closing (h : p.Plain ids) {i : Nat} (hi : i < ids.length) :
    (p.closing [i]).Plain ids where
  rhs := h.rhs
  length := h.length
  insertionCost := h.insertionCost
  transpositionCost := h.transpositionCost
  closed j hj := by
    rcases List.mem_append.mp hj with hj | hj
    · exact h.closed j hj
    · exact List.mem_singleton.mp hj ▸ hi

end Proposal

namespace Draft

variable {d e : Draft} {a : Additions} {X : SymbolId} {p : Proposal} {ids : List SymbolId}

theorem symbolExpansion_of_plain (hp : p.Plain ids) (hlive : ∀ id ∈ ids, ∃ s, d.get? id = some s)
    (owner : String) : ∃ x, d.symbolExpansion owner p ids = .ok x ∧ x.parts = ids := by
  have hfound : ids.forM (fun id => discard (d.live id)) = .ok () := by
    refine Outcome.forM_eq_ok_iff.mpr fun id hid => ?_
    obtain ⟨s, hs⟩ := hlive id hid
    simp only [live, hs]
    rfl
  have hclosed : p.noInsertion.forM (fun index => do
      if ids.length ≤ index then throw (.noInsertionIndex owner index ids.length)) =
        (.ok () : Outcome Unit) := by
    refine Outcome.forM_eq_ok_iff.mpr fun i hi => ?_
    simp only [Nat.not_le.mpr (hp.closed i hi), if_false]
    rfl
  have hcost := hp.transpositionCost
  rcases ids with _ | ⟨first, _ | ⟨second, _ | ⟨third, rest⟩⟩⟩
  · simpa using hp.length
  · refine ⟨.unary first (!p.noInsertion.isEmpty), ?_, rfl⟩
    simp only [symbolExpansion, hfound, hclosed, hcost, bind, Except.bind]
    rfl
  · refine ⟨.binary first second none ⟨p.noInsertion.contains 0, p.noInsertion.contains 1⟩, ?_, rfl⟩
    simp only [symbolExpansion, hfound, hclosed, hcost, bind, Except.bind]
    rfl
  · simpa using hp.length

theorem checkSemantics_of_registered {ids : List SemanticId}
    (h : ∀ id ∈ ids, id.index < d.vocabulary.size) : d.checkSemantics ids = .ok () := by
  refine Outcome.forM_eq_ok_iff.mpr fun id hid => ?_
  have hlt := h id (Keyed.mem_of_mem_distinct hid)
  simp only [Vocabulary.definition, Vocabulary.get?, List.getElem?_eq_getElem hlt]
  rfl

/-- For a symbol that may have any rules, a plain rule over live symbols and with registered
semantics is accepted. -/
theorem ruleOf_of_plain (hp : p.Plain ids) {owner : Symbol} (howner : d.get? X = some owner)
    (hany : owner.isTermSequence = false) (hlive : ∀ id ∈ ids, ∃ s, d.get? id = some s)
    (hsemantic : ∀ s, p.semantic = some s → ∀ id ∈ s.ids, id.index < d.vocabulary.size) :
    ∃ r, d.ruleOf X p = .ok r := by
  obtain ⟨x, hx, hparts⟩ := symbolExpansion_of_plain hp hlive owner.name
  have hexpansion : d.expansionOf owner.name p = .ok x := by
    simp only [expansionOf, hp.rhs, hx]
  have hattached : p.semantic.forM (d.checkAttachment owner.name x) = .ok () := by
    cases hs : p.semantic with
    | none => rfl
    | some s =>
      have hchecked := checkSemantics_of_registered (hsemantic s hs)
      have hterminal : ∀ term text, x ≠ .terminal term text := by
        rintro term text rfl
        have hlength := hp.length
        simp [← hparts, Expansion.parts] at hlength
      simp only [Option.forM, checkAttachment, hchecked, bind, Except.bind]
      split
      next => exact absurd rfl (hterminal _ _)
      next => rfl
  have hlive : d.live X = .ok owner := by simp [live, howner]
  simp only [ruleOf, hlive, hexpansion, hany, hp.insertionCost, hattached, bind, Except.bind,
    Bool.false_and, Bool.false_eq_true, if_false]
  exact ⟨_, rfl⟩

theorem live_of_ruleOf {r : Rule} (hrhs : p.rhs = .symbols ids) (h : d.ruleOf X p = .ok r) :
    ∀ id ∈ ids, ∃ s, d.get? id = some s := by
  obtain ⟨owner, hx, -⟩ := ruleOf_eq hrhs h
  exact (symbolExpansion_eq hx).1

/-- The semantics that an attachment names are registered. -/
def Attachable (d : Draft) (a : Additions) (p : Proposal) : Prop :=
  ∀ s, p.semantic = some s → ∀ id ∈ s.ids, id.index < d.vocabulary.size + a.semantics.length

theorem attachable_of_none (h : p.semantic = none) : d.Attachable a p := by
  intro s hs
  rw [h] at hs
  cases hs

theorem attachable_of_some {s : Attachment} (h : p.semantic = some s)
    (hids : ∀ id ∈ s.ids, id.index < d.vocabulary.size + a.semantics.length) : d.Attachable a p := by
  intro s' hs
  obtain rfl : s = s' := Option.some.inj (h.symm.trans hs)
  exact hids

theorem enlarges_addRule (hX : d.Owned a X) (hp : p.Plain ids) (hsemantic : d.Attachable a p) :
    d.Enlarges a (fun e => return ((), ← e.addRule X p)) (∀ id ∈ ids, d.Stands a id) () a := by
  intro e he
  have hsize : e.vocabulary.size = d.vocabulary.size + a.semantics.length := by
    rw [Vocabulary.size, he.definitions, List.length_append, Vocabulary.size]
  obtain ⟨owner, howner, hany⟩ := he.exists_of_owned hX
  have hnew : d.symbols.length ≤ X.index := by
    obtain ⟨i, part, rfl, -⟩ := hX
    exact Nat.le_add_right _ _
  simp only [← he.mem_liveSymbols_iff, mem_liveSymbols_iff]
  cases hrule : e.ruleOf X p with
  | ok r =>
    simp only [addRule, hrule, bind, Except.bind, pure, Except.pure]
    exact ⟨live_of_ruleOf hp.rhs hrule, trivial, he.appendRule hnew r⟩
  | error err =>
    simp only [addRule, hrule, bind, Except.bind]
    intro hlive
    obtain ⟨r, hr⟩ := ruleOf_of_plain hp howner hany hlive (by rw [hsize]; exact hsemantic)
    rw [hr] at hrule
    cases hrule

theorem addBinaryRule_of_plain (hp : p.Plain ids) (hlength : ids.length = 2) :
    d.addBinaryRule X p = d.addRule X p := by
  simp only [addBinaryRule, hp.rhs, hlength, if_true]

theorem enlarges_addBinaryRule {first second : SymbolId} (hX : d.Owned a X)
    (hp : p.Plain [first, second]) (hsemantic : d.Attachable a p) :
    d.Enlarges a (fun e => return ((), ← e.addBinaryRule X p))
      (d.Stands a first ∧ d.Stands a second) () a := by
  intro e he
  simp only [addBinaryRule_of_plain hp rfl]
  simpa using enlarges_addRule hX hp hsemantic e he

theorem enlarges_addUnaryRule {part : SymbolId} (hX : d.Owned a X) (hp : p.Plain [part])
    (hsemantic : d.Attachable a p) :
    d.Enlarges a (fun e => return ((), ← e.addRule X p)) (d.Stands a part) () a := by
  intro e he
  simpa using enlarges_addRule hX hp hsemantic e he

/-- A symbol of the additions may read the names of a category of the additions. -/
theorem enlarges_addPlaceholder (hX : d.Owned a X) {c : EntityCategory} (hc : a.categories = [c])
    (hlive : c.pruned = false) :
    d.Enlarges a
      (fun e => return ((), ← e.addRule X { rhs := .placeholder ⟨d.entityCategories.length⟩ }))
      True () a := by
  intro e he
  obtain ⟨owner, howner, hany⟩ := he.exists_of_owned hX
  have hnew : d.symbols.length ≤ X.index := by
    obtain ⟨i, part, rfl, -⟩ := hX
    exact Nat.le_add_right _ _
  have hcategory : e.entityCategory? ⟨d.entityCategories.length⟩ = some c := by
    simp [entityCategory?, he.categories, hc, hlive, Option.filter]
  have hrule : e.ruleOf X { rhs := .placeholder ⟨d.entityCategories.length⟩ } =
      .ok { expansion := .placeholder ⟨d.entityCategories.length⟩ } := by
    have hlive : e.live X = .ok owner := by simp [live, howner]
    simp only [ruleOf, hlive, expansionOf, checkExtras, hcategory, hany, bind, Except.bind]
    rfl
  simp only [addRule, hrule, bind, Except.bind, pure, Except.pure]
  exact ⟨trivial, trivial, he.appendRule hnew _⟩

end Draft

end QueryGrammar
