import QueryGrammar.Proofs.Named.Rows
/-!
The rows of a draft once its terminals are single tokens. Each row is split by itself, and symbols
are made for the tokens that some terminal needs, so the rows can be told from those before.
-/
namespace QueryGrammar

/-- A row in the form for single tokens. -/
def NamedRule.split (row : NamedRule) : NamedRule :=
  match row.rhs with
  | .terminal term =>
    match Text.wordsOf term with
    | [] => { row with rhs := .symbols [emptyName], text := none, insertionCost := none }
    | [_] => row
    | token :: rest =>
      { row with
        rhs := .termSequence [rowName [token], rowName rest]
        text := some (row.text.getD (.replace term)) }
  | _ => row

/-- The row of the symbol made for the tokens. -/
def madeRow : List String → NamedRule
  | [] => { rhs := .terminal emptyName, text := some .silent }
  | [token] => { rhs := .terminal token }
  | token :: rest => { rhs := .termSequence [rowName [token], rowName rest] }

/-- A symbol is made for the tokens, because of some terminal or of a symbol made for more. -/
inductive Rows.Needs (R : Rows) : List String → Prop where
  | nothing {name term : String} {row : NamedRule} (has : R name row)
      (terminal : row.rhs = .terminal term) (words : Text.wordsOf term = []) : Needs R []
  | head {name term token : String} {rest : List String} {row : NamedRule} (has : R name row)
      (terminal : row.rhs = .terminal term) (words : Text.wordsOf term = token :: rest)
      (several : rest ≠ []) : Needs R [token]
  | tail {name term token : String} {rest : List String} {row : NamedRule} (has : R name row)
      (terminal : row.rhs = .terminal term) (words : Text.wordsOf term = token :: rest)
      (several : rest ≠ []) : Needs R rest
  | first {token : String} {rest : List String} (whole : Needs R (token :: rest))
      (several : rest ≠ []) : Needs R [token]
  | rest {token : String} {rest : List String} (whole : Needs R (token :: rest))
      (several : rest ≠ []) : Needs R rest

namespace Draft

variable {d e : Draft} {n : Nat}

/-- Nothing is known to read tokens. -/
abbrev NoneKnown : SymbolId → List String → Prop := fun _ _ => False

/-- A symbol reads one row of tokens. -/
theorem Reads.unique {id : SymbolId} {tokens others : List String}
    (h : d.Reads n NoneKnown id tokens) (h' : d.Reads n NoneKnown id others) : tokens = others := by
  induction h generalizing others with
  | known _ hreads => exact hreads.elim
  | nothing _ hrules =>
    cases h' with
    | known _ hreads => exact hreads.elim
    | nothing => rfl
    | token _ htoken hrules' =>
      have hterm := hrules.symm.trans hrules'
      simp at hterm
    | row _ _ hrules' =>
      have hterm := hrules.symm.trans hrules'
      simp at hterm
  | token _ _ hrules =>
    cases h' with
    | known _ hreads => exact hreads.elim
    | nothing _ hrules' =>
      have hterm := hrules.symm.trans hrules'
      simp at hterm
    | token _ _ hrules' =>
      have hterm := hrules.symm.trans hrules'
      simp at hterm
      rw [hterm]
    | row _ _ hrules' =>
      have hterm := hrules.symm.trans hrules'
      simp at hterm
  | row _ _ hrules _ _ ihhead ihtail =>
    cases h' with
    | known _ hreads => exact hreads.elim
    | nothing _ hrules' =>
      have hterm := hrules.symm.trans hrules'
      simp at hterm
    | token _ _ hrules' =>
      have hterm := hrules.symm.trans hrules'
      simp at hterm
    | row _ _ hrules' hhead htail =>
      have hparts := hrules.symm.trans hrules'
      simp only [List.cons.injEq, Rule.mk.injEq, Expansion.sequence.injEq, Option.some.injEq,
        and_true] at hparts
      obtain ⟨rfl, rfl⟩ := hparts
      rw [List.head_eq_of_cons_eq (ihhead hhead), ihtail htail]

section Split

variable {r r' : Rule} {term : String} {text : DisplayText}
  (hsplits : d.Splits n NoneKnown r r') (hterminal : r.expansion = .terminal term text)
include hsplits hterminal

theorem Splits.exists_reads_nothing (hwords : Text.wordsOf term = []) :
    ∃ id, d.Reads n NoneKnown id [] := by
  cases hsplits with
  | same hsingle =>
    have hone := hsingle term text hterminal
    simp [hwords] at hone
  | nothing _ _ hreads => exact ⟨_, hreads⟩
  | row hterminal' hwords' =>
    obtain ⟨rfl, -⟩ := Expansion.terminal.inj (hterminal.symm.trans hterminal')
    simp [hwords] at hwords'

theorem Splits.exists_reads_row {token : String} {rest : List String}
    (hwords : Text.wordsOf term = token :: rest) (hseveral : rest ≠ []) :
    ∃ first second, d.Reads n NoneKnown first [token] ∧ d.Reads n NoneKnown second rest := by
  cases hsplits with
  | same hsingle =>
    have hone := hsingle term text hterminal
    rw [hwords, List.cons.injEq] at hone
    exact absurd hone.2 hseveral
  | nothing hterminal' hwords' =>
    obtain ⟨rfl, -⟩ := Expansion.terminal.inj (hterminal.symm.trans hterminal')
    simp [hwords] at hwords'
  | row hterminal' hwords' _ hhead htail =>
    obtain ⟨rfl, -⟩ := Expansion.terminal.inj (hterminal.symm.trans hterminal')
    obtain ⟨rfl, rfl⟩ := List.cons.inj (hwords.symm.trans hwords')
    exact ⟨_, _, hhead, htail⟩

end Split

section Stage

variable (h : Tokenized NoneKnown d d.liveSymbols e)

theorem Reads.made {id : SymbolId} {tokens : List String}
    (hreads : d.Reads n NoneKnown id tokens) : n ≤ id.index :=
  hreads.known_or_made.resolve_left False.elim

include h

theorem Tokenized.sameNames : SameNames d e where
  symbols _ hX := h.symbolName_eq hX
  vocabulary := by rw [h.rest]
  categories c := by
    rw [h.rest]
    rfl

theorem Tokenized.symbolName_of_reads {id : SymbolId} {tokens : List String}
    (hreads : e.Reads d.symbols.length NoneKnown id tokens) : e.symbolName id = rowName tokens := by
  have hlive := hreads.live (n := d.symbols.length) fun _ _ hknown => hknown.elim
  obtain ⟨s, hs⟩ := mem_liveSymbols_iff.mp hlive
  obtain ⟨⟨others, -, hname, hothers⟩, -⟩ :=
    h.made id.index s (get?_eq_some_iff.mp hs).1 hreads.made
  rw [symbolName_of_get? hs, hname, hreads.unique hothers]

theorem Tokenized.namedRule_of_reads {id : SymbolId} {tokens : List String}
    (hreads : e.Reads d.symbols.length NoneKnown id tokens) :
    ∃ r, e.rules id = [r] ∧ e.namedRule r = madeRow tokens := by
  cases hreads with
  | known _ hknown => exact hknown.elim
  | nothing _ hrules => exact ⟨_, hrules, rfl⟩
  | token _ _ hrules => exact ⟨_, hrules, rfl⟩
  | @row _ first second token rest _ hseveral hrules hhead htail =>
    refine ⟨_, hrules, ?_⟩
    obtain ⟨next, rest, rfl⟩ := List.exists_cons_of_ne_nil hseveral
    simp [namedRule, namedExpansion, writtenText, madeRow, h.symbolName_of_reads hhead,
      h.symbolName_of_reads htail]

theorem Tokenized.hasRow_of_reads {id : SymbolId} {tokens : List String}
    (hreads : e.Reads d.symbols.length NoneKnown id tokens) :
    e.HasRow (rowName tokens) (madeRow tokens) := by
  obtain ⟨r, hrules, hrow⟩ := h.namedRule_of_reads hreads
  exact ⟨id, r, hrules ▸ List.mem_singleton_self r, h.symbolName_of_reads hreads, hrow⟩

/-- The row of a rule that was split is the row split. -/
theorem Tokenized.namedRule_of_splits {r r' : Rule}
    (hparts : ∀ Y ∈ r.expansion.parts, Y ∈ d.liveSymbols)
    (hsplits : e.Splits d.symbols.length NoneKnown r r') :
    e.namedRule r' = (d.namedRule r).split := by
  have hsame := h.sameNames
  cases hsplits with
  | same hsingle =>
    rw [hsame.namedRule_eq hparts]
    cases hx : r.expansion with
    | terminal term text =>
      simp [NamedRule.split, namedRule, namedExpansion, hx, hsingle term text hx]
    | _ => simp [NamedRule.split, namedRule, namedExpansion, hx]
  | @nothing term text empty hterminal hwords hreads =>
    have hname := h.symbolName_of_reads hreads
    simp [NamedRule.split, namedRule, namedExpansion, hterminal, hwords, hname, rowName,
      hsame.vocabulary]
  | @row term token rest text first second hterminal hwords hseveral hhead htail =>
    have hfirst := h.symbolName_of_reads hhead
    have hsecond := h.symbolName_of_reads htail
    obtain ⟨next, rest, rfl⟩ := List.exists_cons_of_ne_nil hseveral
    cases text <;>
      simp [NamedRule.split, namedRule, namedExpansion, writtenText, wholeText, hterminal, hwords,
        hfirst, hsecond, hsame.vocabulary]

/-- Whatever tokens are needed, a symbol was made that reads them. -/
theorem Tokenized.exists_reads {tokens : List String} (hneeds : d.HasRow.Needs tokens) :
    ∃ id, e.Reads d.symbols.length NoneKnown id tokens := by
  have hsplit : ∀ {name term : String} {row : NamedRule}, d.HasRow name row →
      row.rhs = .terminal term → ∃ r r' text, r.expansion = .terminal term text ∧
        e.Splits d.symbols.length NoneKnown r r' := by
    rintro name term _ ⟨X, r, hr, -, rfl⟩ hrhs
    obtain ⟨r', -, hsplits⟩ := (exists_mem_of_forall₂ (h.rules (live_of_mem_rules hr))).1 r hr
    cases hx : r.expansion <;> simp [namedRule, namedExpansion, hx] at hrhs
    exact ⟨r, r', _, hrhs ▸ hx, hsplits⟩
  induction hneeds with
  | nothing hrow hterminal hwords =>
    obtain ⟨r, r', text, hx, hsplits⟩ := hsplit hrow hterminal
    exact hsplits.exists_reads_nothing hx hwords
  | head hrow hterminal hwords hseveral =>
    obtain ⟨r, r', text, hx, hsplits⟩ := hsplit hrow hterminal
    obtain ⟨first, -, hhead, -⟩ := hsplits.exists_reads_row hx hwords hseveral
    exact ⟨first, hhead⟩
  | tail hrow hterminal hwords hseveral =>
    obtain ⟨r, r', text, hx, hsplits⟩ := hsplit hrow hterminal
    obtain ⟨-, second, -, htail⟩ := hsplits.exists_reads_row hx hwords hseveral
    exact ⟨second, htail⟩
  | first _ hseveral ih =>
    obtain ⟨id, hreads⟩ := ih
    cases hreads with
    | known _ hknown => exact hknown.elim
    | token => exact absurd rfl hseveral
    | row _ _ _ hhead _ => exact ⟨_, hhead⟩
  | rest _ hseveral ih =>
    obtain ⟨id, hreads⟩ := ih
    cases hreads with
    | known _ hknown => exact hknown.elim
    | token => exact absurd rfl hseveral
    | row _ _ _ _ htail => exact ⟨_, htail⟩

/-- The tokens that a made symbol reads are needed. -/
theorem Tokenized.needs_of_below
    (hparts : ∀ X, ∀ r ∈ d.rules X, ∀ Y ∈ r.expansion.parts, Y ∈ d.liveSymbols) {X id : SymbolId}
    (hX : X ∈ d.liveSymbols)
    (hbelow : e.Below d.symbols.length ((e.rules X).flatMap (·.expansion.parts)) id)
    {tokens : List String} (hreads : e.Reads d.symbols.length NoneKnown id tokens) :
    d.HasRow.Needs tokens := by
  induction hbelow generalizing tokens with
  | root hmem =>
    obtain ⟨r', hr', hpart⟩ := List.mem_flatMap.mp hmem
    obtain ⟨r, hr, hsplits⟩ := (exists_mem_of_forall₂ (h.rules hX)).2 r' hr'
    have hrow : d.HasRow (d.symbolName X) (d.namedRule r) := ⟨X, r, hr, rfl, rfl⟩
    have hrhs : ∀ term text, r.expansion = .terminal term text →
        (d.namedRule r).rhs = .terminal term := by
      intro term text hx
      simp [namedRule, namedExpansion, hx]
    have hlive := hparts X r hr
    cases hsplits with
    | same =>
      obtain ⟨s, hs⟩ := mem_liveSymbols_iff.mp (hlive _ hpart)
      have hold := (List.getElem?_eq_some_iff.mp (get?_eq_some_iff.mp hs).1).1
      exact absurd hold (Nat.not_lt.mpr hreads.made)
    | nothing hterminal hwords hempty =>
      rw [List.mem_singleton.mp hpart] at hreads
      rw [hreads.unique hempty]
      exact .nothing hrow (hrhs _ _ hterminal) hwords
    | row hterminal hwords hseveral hhead htail =>
      rcases List.mem_cons.mp hpart with rfl | hpart
      · rw [hreads.unique hhead]
        exact .head hrow (hrhs _ _ hterminal) hwords hseveral
      · rw [List.mem_singleton.mp hpart] at hreads
        rw [hreads.unique htail]
        exact .tail hrow (hrhs _ _ hterminal) hwords hseveral
  | @step Y part r _ hmade hr hpart ih =>
    obtain ⟨s, hs⟩ := mem_liveSymbols_iff.mp (live_of_mem_rules hr)
    obtain ⟨⟨whole, -, -, hwhole⟩, -⟩ := h.made Y.index s (get?_eq_some_iff.mp hs).1 hmade
    have hneeds := ih hwhole
    cases hwhole with
    | known _ hknown => exact hknown.elim
    | nothing _ hrules =>
      rw [hrules, List.mem_singleton] at hr
      simp [hr, Expansion.parts] at hpart
    | token _ _ hrules =>
      rw [hrules, List.mem_singleton] at hr
      simp [hr, Expansion.parts] at hpart
    | row _ hseveral hrules hhead htail =>
      rw [hrules, List.mem_singleton] at hr
      subst hr
      rcases List.mem_cons.mp hpart with rfl | hpart
      · rw [hreads.unique hhead]
        exact .first hneeds hseveral
      · rw [List.mem_singleton.mp hpart] at hreads
        rw [hreads.unique htail]
        exact .rest hneeds hseveral

/-- The rows after splitting: the split rows, and those of the symbols made for tokens. -/
theorem Tokenized.hasRow_iff
    (hparts : ∀ X, ∀ r ∈ d.rules X, ∀ Y ∈ r.expansion.parts, Y ∈ d.liveSymbols) {name : String}
    {row : NamedRule} : e.HasRow name row ↔
      (∃ old, d.HasRow name old ∧ row = old.split) ∨
      ∃ tokens, d.HasRow.Needs tokens ∧ name = rowName tokens ∧ row = madeRow tokens := by
  constructor
  · rintro ⟨X, r', hr', rfl, rfl⟩
    rcases h.live_cases (live_of_mem_rules hr') with hX | hmade
    · obtain ⟨r, hr, hsplits⟩ := (exists_mem_of_forall₂ (h.rules hX)).2 r' hr'
      exact Or.inl ⟨d.namedRule r, ⟨X, r, hr, (h.symbolName_eq hX).symm, rfl⟩,
        h.namedRule_of_splits (hparts X r hr) hsplits⟩
    · obtain ⟨s, hs⟩ := mem_liveSymbols_iff.mp (live_of_mem_rules hr')
      obtain ⟨⟨tokens, -, -, hreads⟩, Y, hY, hbelow⟩ :=
        h.made X.index s (get?_eq_some_iff.mp hs).1 hmade
      obtain ⟨r, hrules, hrow⟩ := h.namedRule_of_reads hreads
      have heq : r' = r := List.mem_singleton.mp (hrules ▸ hr')
      exact Or.inr ⟨tokens, h.needs_of_below hparts hY hbelow hreads,
        h.symbolName_of_reads hreads, heq ▸ hrow⟩
  · rintro (⟨_, ⟨X, r, hr, rfl, rfl⟩, rfl⟩ | ⟨tokens, hneeds, rfl, rfl⟩)
    · obtain ⟨r', hr', hsplits⟩ := (exists_mem_of_forall₂ (h.rules (live_of_mem_rules hr))).1 r hr
      exact ⟨X, r', hr', h.symbolName_eq (live_of_mem_rules hr),
        h.namedRule_of_splits (hparts X r hr) hsplits⟩
    · obtain ⟨id, hreads⟩ := h.exists_reads hneeds
      exact h.hasRow_of_reads hreads

end Stage

end Draft

end QueryGrammar
