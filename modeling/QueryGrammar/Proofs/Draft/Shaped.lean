import QueryGrammar.Proofs.Finish.Used
/-!
What registration checks of a rule besides its references: a sequence reads term sequences, an
exchange of parts has a cost, and no terminal waits for the semantics of parts it does not have.
Finishing keeps this, because the symbols it makes for tokens are term sequences, and one that it
finds under such a name was made so.
-/
namespace QueryGrammar.Draft

/-- The symbol reads by lexical rules only, so that a sequence may read it. -/
def IsTermSequence (d : Draft) (Y : SymbolId) : Prop :=
  ∃ s, d.symbols[Y.index]? = some s ∧ s.isTermSequence = true

/-- `e` has the term sequences of `d`, perhaps among others. -/
def KeepsTermSequences (d e : Draft) : Prop := ∀ Y, d.IsTermSequence Y → e.IsTermSequence Y

structure ShapedRule (d : Draft) (r : Rule) : Prop where
  sequence : r.expansion.isLexical = true → ∀ Y ∈ r.expansion.parts, d.IsTermSequence Y
  transposition : ∀ first second cost excluded,
    r.expansion = .binary first second (some cost) excluded → Vocabulary.isCost cost = true
  terminal : ∀ term text chain, r.expansion = .terminal term text →
    r.semantic ≠ some (.deferred chain)

structure Shaped (d : Draft) : Prop where
  /-- Whatever is not named in brackets was made for tokens. -/
  made : ∀ s ∈ d.symbols, s.name.toList.head? ≠ some '[' → s.isTermSequence = true
  rules : ∀ X, ∀ r ∈ d.rules X, d.ShapedRule r

variable {d e f : Draft}

theorem KeepsTermSequences.trans (hde : KeepsTermSequences d e) (hef : KeepsTermSequences e f) :
    KeepsTermSequences d f := fun Y hY => hef Y (hde Y hY)

theorem ShapedRule.mono {r : Rule} (hr : d.ShapedRule r) (h : KeepsTermSequences d e) :
    e.ShapedRule r where
  sequence hlexical Y hY := h Y (hr.sequence hlexical Y hY)
  transposition := hr.transposition
  terminal := hr.terminal

theorem keepsTermSequences_appendSymbol (d : Draft) (s : Symbol) :
    KeepsTermSequences d (d.appendSymbol s).2 := by
  rintro Y ⟨t, ht, hflag⟩
  refine ⟨t, ?_, hflag⟩
  rw [appendSymbol, List.getElem?_append_left (List.getElem?_eq_some_iff.mp ht).1]
  exact ht

theorem isTermSequence_appendSymbol {s : Symbol} (hs : s.isTermSequence = true) :
    (d.appendSymbol s).2.IsTermSequence ⟨d.symbols.length⟩ :=
  ⟨s, by simp [appendSymbol], hs⟩

theorem keepsTermSequences_modifyRules (d : Draft) (id : SymbolId) (g : List Rule → List Rule) :
    KeepsTermSequences d (d.modifySymbol id fun s => { s with rules := g s.rules }) := by
  rintro Y ⟨t, ht, hflag⟩
  rw [IsTermSequence, getElem?_modifyRules, ht]
  by_cases hY : id.index = Y.index
  · exact ⟨{ t with rules := g t.rules }, by simp [hY], hflag⟩
  · exact ⟨t, by simp [hY], hflag⟩

theorem keepsTermSequences_appendRule (d : Draft) (id : SymbolId) (r : Rule) :
    KeepsTermSequences d (d.appendRule id r) := by
  unfold appendRule
  split
  · exact d.keepsTermSequences_modifyRules id (· ++ [r])
  · exact fun _ hY => hY

theorem Shaped.appendSymbol {s : Symbol} (hd : d.Shaped)
    (hs : s.name.toList.head? ≠ some '[' → s.isTermSequence = true) (hnone : s.rules = []) :
    (d.appendSymbol s).2.Shaped where
  made t ht hhead := by
    rcases List.mem_append.mp ht with ht | ht
    · exact hd.made t ht hhead
    · obtain rfl := List.mem_singleton.mp ht
      exact hs hhead
  rules X r hr :=
    (hd.rules X r (rules_appendSymbol_subset hnone X hr)).mono (d.keepsTermSequences_appendSymbol s)

theorem Shaped.modifyRules {id : SymbolId} {g : List Rule → List Rule} (hd : d.Shaped)
    (hnew : ∀ r ∈ g (d.rules id), r ∈ d.rules id ∨ d.ShapedRule r) :
    (d.modifySymbol id fun s => { s with rules := g s.rules }).Shaped where
  made t ht hhead := by
    obtain ⟨i, hi⟩ := List.getElem?_of_mem ht
    rw [getElem?_modifyRules] at hi
    obtain ⟨s, hs, rfl⟩ := Option.map_eq_some_iff.mp hi
    have hmem := List.mem_of_getElem? hs
    by_cases hX : id.index = i
    · rw [if_pos hX] at hhead ⊢
      exact hd.made s hmem hhead
    · rw [if_neg hX] at hhead ⊢
      exact hd.made s hmem hhead
  rules X r hr := by
    apply ShapedRule.mono _ (d.keepsTermSequences_modifyRules id g)
    have hmem := (mem_rules_modifyRules.mp hr).2
    by_cases hX : id.index = X.index
    · obtain rfl : id = X := by
        cases id
        cases X
        exact congrArg SymbolId.mk hX
      rw [if_pos rfl] at hmem
      rcases hnew r hmem with hold | hshaped
      · exact hd.rules id r hold
      · exact hshaped
    · rw [if_neg hX] at hmem
      exact hd.rules X r hmem

theorem Shaped.appendRule {id : SymbolId} {r : Rule} (hd : d.Shaped) (hr : d.ShapedRule r) :
    (d.appendRule id r).Shaped := by
  unfold Draft.appendRule
  split
  · apply hd.modifyRules (g := (· ++ [r]))
    intro q hq
    rcases List.mem_append.mp hq with hq | hq
    · exact Or.inl hq
    · exact Or.inr (List.mem_singleton.mp hq ▸ hr)
  · exact hd

/-! ### Registration -/

theorem isTermSequence_of_get? {Y : SymbolId} {s : Symbol} (hs : d.get? Y = some s)
    (hflag : s.isTermSequence = true) : d.IsTermSequence Y :=
  ⟨s, (get?_eq_some_iff.mp hs).1, hflag⟩

theorem mem_indexes_iff {excluded : Excluded} {i : Nat} : i ∈ excluded.indexes ↔
    (i = 0 ∧ excluded.first = true) ∨ (i = 1 ∧ excluded.second = true) := by
  obtain ⟨first, second⟩ := excluded
  cases first <;> cases second <;> simp [Excluded.indexes]

/-- The positions closed in a rule over two symbols are those the proposal closes. -/
theorem mem_indexes_of_symbols {owner : String} {p : Proposal} {ids : List SymbolId}
    {first second : SymbolId} {cost : Option Float} {excluded : Excluded}
    (h : d.symbolExpansion owner p ids = .ok (.binary first second cost excluded)) (i : Nat) :
    i ∈ excluded.indexes ↔ i ∈ p.noInsertion := by
  obtain ⟨-, hclosed, ⟨_, -, heq⟩ | ⟨_, _, rfl, -, heq⟩⟩ := symbolExpansion_eq h
  · cases heq
  · cases heq
    have hcases : i < 2 → i = 0 ∨ i = 1 := by omega
    rw [mem_indexes_iff]
    constructor
    · rintro (⟨rfl, hmem⟩ | ⟨rfl, hmem⟩)
      · exact List.contains_iff_mem.mp hmem
      · exact List.contains_iff_mem.mp hmem
    · intro hi
      rcases hcases (hclosed i hi) with rfl | rfl
      · exact Or.inl ⟨rfl, List.contains_iff_mem.mpr hi⟩
      · exact Or.inr ⟨rfl, List.contains_iff_mem.mpr hi⟩

/-- An expansion whose parts are term sequences where it is lexical, with a checked cost where its
parts may be exchanged. -/
structure ShapedExpansion (d : Draft) (x : Expansion) : Prop where
  sequence : x.isLexical = true → ∀ Y ∈ x.parts, d.IsTermSequence Y
  transposition : ∀ first second cost excluded, x = .binary first second (some cost) excluded →
    Vocabulary.isCost cost = true

theorem shapedExpansion_of_symbols {owner : String} {p : Proposal} {ids : List SymbolId}
    {x : Expansion} (h : d.symbolExpansion owner p ids = .ok x) : d.ShapedExpansion x := by
  obtain ⟨-, -, ⟨part, -, rfl⟩ | ⟨first, second, -, hcost, rfl⟩⟩ := symbolExpansion_eq h
  · exact ⟨by simp [Expansion.isLexical], by simp⟩
  · refine ⟨by simp [Expansion.isLexical], ?_⟩
    intro _ _ cost _ heq
    exact hcost cost (Expansion.binary.inj heq).2.2.1

theorem shapedExpansion_of_sequence {owner : String} {ids : List SymbolId} {text : DisplayText}
    {x : Expansion} (h : d.sequenceExpansion owner ids text = .ok x) : d.ShapedExpansion x := by
  obtain ⟨hparts, first, second, rfl, rfl⟩ := sequenceExpansion_eq_ok_iff.mp h
  refine ⟨?_, by simp⟩
  intro _ Y hY
  obtain ⟨s, hs, hflag⟩ := hparts Y hY
  exact isTermSequence_of_get? hs hflag

theorem shapedExpansion_of_expansionOf {owner : String} {p : Proposal} {x : Expansion}
    (h : d.expansionOf owner p = .ok x) : d.ShapedExpansion x := by
  unfold expansionOf at h
  split at h
  next => exact shapedExpansion_of_symbols h
  next =>
    obtain ⟨ids, -, h⟩ := Outcome.ok_of_bind h
    exact shapedExpansion_of_symbols h
  next =>
    simp only [Outcome.bind_eq_ok_iff] at h
    obtain ⟨_, -, _, -, h⟩ := h
    cases h
    exact ⟨by simp [Expansion.parts], by simp⟩
  next =>
    obtain ⟨_, -, h⟩ := Outcome.ok_of_bind h
    exact shapedExpansion_of_sequence h
  next =>
    simp only [Outcome.bind_eq_ok_iff, Outcome.guard_eq_ok_iff] at h
    obtain ⟨_, -, -, h⟩ := h
    cases h
    exact ⟨by simp [Expansion.isLexical], by simp⟩

theorem shapedRule_of_ruleOf {id : SymbolId} {p : Proposal} {r : Rule} (h : d.ruleOf id p = .ok r) :
    d.ShapedRule r := by
  unfold ruleOf at h
  simp only [Outcome.bind_eq_ok_iff, Outcome.guard_eq_ok_iff] at h
  obtain ⟨owner, -, x, hx, -, _, -, _, hsemantic, h⟩ := h
  cases h
  have hexpansion := shapedExpansion_of_expansionOf hx
  refine ⟨hexpansion.sequence, hexpansion.transposition, ?_⟩
  intro term text chain hterminal hdeferred
  obtain rfl : x = .terminal term text := hterminal
  rw [show p.semantic = some (.deferred chain) from hdeferred] at hsemantic
  obtain ⟨_, -, hrefused⟩ := Outcome.ok_of_bind hsemantic
  cases hrefused

theorem Shaped.newSymbolOf {isTermSequence : Bool} {parts : List String} {id : SymbolId}
    (hd : d.Shaped) (h : d.newSymbolOf isTermSequence parts = .ok (id, e)) :
    e.Shaped ∧ KeepsTermSequences d e := by
  obtain ⟨name, hname, -, heq⟩ := newSymbolOf_eq h
  obtain ⟨rfl, rfl⟩ := Prod.mk.inj heq
  refine ⟨hd.appendSymbol ?_ rfl, d.keepsTermSequences_appendSymbol _⟩
  intro hhead
  exact absurd (head_of_symbol hname) hhead

theorem Shaped.addRule {id : SymbolId} {p : Proposal} (hd : d.Shaped)
    (h : d.addRule id p = .ok e) : e.Shaped := by
  obtain ⟨r, hr, h⟩ := Outcome.ok_of_bind h
  cases h
  exact hd.appendRule (shapedRule_of_ruleOf hr)

theorem shapedRule_toRule (d : Draft) (semantic : Option Forest) (entry : LexicalEntry) :
    d.ShapedRule (LexicalEntry.toRule semantic entry) where
  sequence _ := by simp [LexicalEntry.toRule, Expansion.parts]
  transposition := by simp [LexicalEntry.toRule]
  terminal _ _ chain _ := by cases semantic <;> simp [LexicalEntry.toRule]

theorem Shaped.addLexical {name : String} {entries : List LexicalEntry}
    {semantic : Option Forest} {id : SymbolId} (hd : d.Shaped)
    (h : d.addLexical name entries semantic = .ok (id, e)) : e.Shaped := by
  obtain ⟨kept, f, -, hnew, rfl⟩ := addLexical_eq_ok_iff.mp h
  apply (hd.newSymbolOf hnew).1.modifyRules
    (g := fun _ => kept.map (LexicalEntry.toRule semantic))
  intro r hr
  obtain ⟨entry, -, rfl⟩ := List.mem_map.mp hr
  exact Or.inr (shapedRule_toRule f semantic entry)

theorem Shaped.newPhrase {name : String} {parts : List SymbolId} {text : DisplayText}
    {semantic : Option Forest} {id : SymbolId} (hd : d.Shaped)
    (h : d.newPhrase name parts text semantic = .ok (id, e)) : e.Shaped := by
  obtain ⟨owner, x, f, hx, -, hnew, rfl⟩ := rule_of_newPhrase h
  obtain ⟨hf, hkeeps⟩ := hd.newSymbolOf hnew
  have hexpansion := shapedExpansion_of_sequence hx
  apply hf.appendRule
  refine ⟨?_, hexpansion.transposition, ?_⟩
  · intro hlexical Y hY
    exact hkeeps Y (hexpansion.sequence hlexical Y hY)
  · intro term _ chain _
    cases semantic <;> simp

/-! ### Finishing -/

theorem trimSymbol_isTermSequence (productive reached : List SymbolId) (s : Symbol)
    (id : SymbolId) : (trimSymbol productive reached s id).isTermSequence = s.isTermSequence := by
  unfold trimSymbol
  split
  · rfl
  · split <;> rfl

theorem isTermSequence_trimmed_iff {Y : SymbolId} :
    d.trimmed.IsTermSequence Y ↔ d.IsTermSequence Y := by
  rw [IsTermSequence, IsTermSequence, trimmed_symbols, List.getElem?_map, List.getElem?_zipIdx]
  cases d.symbols[Y.index]? with
  | none => simp
  | some s => simp [trimSymbol_isTermSequence]

theorem Shaped.trimmed (hd : d.Shaped) (hstart : d.Expands start) : d.trimmed.Shaped := by
  have hkeeps : KeepsTermSequences d d.trimmed := fun Y => isTermSequence_trimmed_iff.mpr
  constructor
  · intro t ht hhead
    rw [trimmed_symbols] at ht
    obtain ⟨⟨s, i⟩, hmem, rfl⟩ := List.mem_map.mp ht
    rw [trimSymbol_isTermSequence]
    rw [trimSymbol_name] at hhead
    exact hd.made s (List.mem_of_getElem? (List.mk_mem_zipIdx_iff_getElem?.mp hmem)) hhead
  · intro X r hr
    have happlies := (mem_rules_trimmed_iff hstart).mp hr
    exact (hd.rules X r happlies.expands.1).mono hkeeps

/-- What a search for the symbol of some tokens answers with: a term sequence. -/
structure FindsTermSequence (d : Draft) (made : SymbolId × Draft) : Prop where
  shaped : made.2.Shaped
  keeps : KeepsTermSequences d made.2
  found : made.2.IsTermSequence made.1

theorem findsTermSequence_madeOnce {name : String} {fill : SymbolId → Draft → Draft}
    (hd : d.Shaped) (hname : name.toList.head? = some '<')
    (hfill : ∀ id e, e.Shaped → (fill id e).Shaped ∧ KeepsTermSequences e (fill id e)) :
    d.FindsTermSequence (madeOnce name fill d) := by
  rcases madeOnce_cases name fill d with ⟨i, s, hs, rfl, heq⟩ | ⟨-, heq⟩
  · rw [heq]
    -- a symbol of this name was made for tokens
    have hhead : s.name.toList.head? ≠ some '[' := by
      rw [hname]
      decide
    exact ⟨hd, fun _ hY => hY, s, hs, hd.made s (List.mem_of_getElem? hs) hhead⟩
  · rw [heq]
    have hadded : (d.appendSymbol { name := name, isTermSequence := true }).2.Shaped :=
      hd.appendSymbol (fun _ => rfl) rfl
    obtain ⟨hshaped, hkeeps⟩ := hfill ⟨d.symbols.length⟩ _ hadded
    exact ⟨hshaped, (d.keepsTermSequences_appendSymbol _).trans hkeeps,
      hkeeps _ (isTermSequence_appendSymbol rfl)⟩

theorem shapedRule_ownTerminal (d : Draft) (term : String) (text : DisplayText) :
    d.ShapedRule { expansion := .terminal term text } :=
  ⟨by simp [Expansion.parts], by simp, by simp⟩

theorem findsTermSequence_nothingReader (hd : d.Shaped) :
    d.FindsTermSequence (nothingReader d) := by
  apply findsTermSequence_madeOnce hd (by decide)
  intro id e he
  exact ⟨he.appendRule (shapedRule_ownTerminal e _ _), e.keepsTermSequences_appendRule id _⟩

theorem findsTermSequence_tokenReader (hd : d.Shaped) (token : String) :
    d.FindsTermSequence (tokenReader token d) := by
  apply findsTermSequence_madeOnce hd (by simp)
  intro id e he
  exact ⟨he.appendRule (shapedRule_ownTerminal e _ _), e.keepsTermSequences_appendRule id _⟩

theorem shapedRule_of_sequence {r : Rule} {first second : SymbolId} {text : DisplayText}
    (hx : r.expansion = .sequence first (some second) text) (hfirst : d.IsTermSequence first)
    (hsecond : d.IsTermSequence second) : d.ShapedRule r where
  sequence _ Y hY := by
    rw [hx] at hY
    rcases List.mem_cons.mp hY with rfl | hY
    · exact hfirst
    · obtain rfl : Y = second := by simpa using hY
      exact hsecond
  transposition := by simp [hx]
  terminal := by simp [hx]

theorem findsTermSequence_rowSymbol (rest : List String) : ∀ {d : Draft} (token : String),
    d.Shaped → d.FindsTermSequence (rowSymbol token rest d) := by
  induction rest with
  | nil => exact fun token hd => findsTermSequence_tokenReader hd token
  | cons next rest ih =>
    intro d token hd
    apply findsTermSequence_madeOnce hd (by simp)
    intro id e he
    have hhead := findsTermSequence_tokenReader he token
    have htail := ih next hhead.shaped
    have hkeeps := hhead.keeps.trans htail.keeps
    constructor
    · apply htail.shaped.appendRule
      exact shapedRule_of_sequence rfl (htail.keeps _ hhead.found) htail.found
    · exact hkeeps.trans (keepsTermSequences_appendRule _ id _)

theorem Shaped.tokenizeRule? {r r' : Rule} (hd : d.Shaped) (h : d.tokenizeRule? r = some (r', e)) :
    e.Shaped ∧ KeepsTermSequences d e ∧ e.ShapedRule r' := by
  unfold Draft.tokenizeRule? at h
  split at h
  next term text _ =>
    split at h
    next =>
      cases h
      have hempty := findsTermSequence_nothingReader hd
      exact ⟨hempty.shaped, hempty.keeps, by simp [Expansion.isLexical], by simp, by simp⟩
    next => cases h
    next token next rest _ =>
      cases h
      have hhead := findsTermSequence_tokenReader hd token
      have htail := findsTermSequence_rowSymbol rest next hhead.shaped
      exact ⟨htail.shaped, hhead.keeps.trans htail.keeps,
        shapedRule_of_sequence rfl (htail.keeps _ hhead.found) htail.found⟩
  next => cases h

theorem Shaped.tokenizeRules {rules : List Rule} (hd : d.Shaped)
    (hrules : ∀ r ∈ rules, d.ShapedRule r) :
    (d.tokenizeRules rules).2.2.Shaped ∧ KeepsTermSequences d (d.tokenizeRules rules).2.2 ∧
      ∀ r ∈ (d.tokenizeRules rules).1, (d.tokenizeRules rules).2.2.ShapedRule r := by
  induction rules generalizing d with
  | nil => exact ⟨hd, fun _ hY => hY, by simp [Draft.tokenizeRules]⟩
  | cons r rules ih =>
    have hrest := fun q hq => hrules q (List.mem_cons_of_mem r hq)
    cases hsplit : d.tokenizeRule? r with
    | none =>
      obtain ⟨hshaped, hkeeps, hall⟩ := ih hd hrest
      simp only [Draft.tokenizeRules, hsplit]
      refine ⟨hshaped, hkeeps, List.forall_mem_cons.mpr ⟨?_, hall⟩⟩
      exact (hrules r List.mem_cons_self).mono hkeeps
    | some result =>
      obtain ⟨hf, hfirst, hr'⟩ := hd.tokenizeRule? hsplit
      obtain ⟨hshaped, hkeeps, hall⟩ := ih hf fun q hq => (hrest q hq).mono hfirst
      simp only [Draft.tokenizeRules, hsplit]
      refine ⟨hshaped, hfirst.trans hkeeps, List.forall_mem_cons.mpr ⟨?_, hall⟩⟩
      exact hr'.mono hkeeps

theorem Shaped.tokenize (hd : d.Shaped) : d.tokenize.2.Shaped := by
  suffices ∀ (ids : List SymbolId) (state : Nat × Draft), state.2.Shaped →
      (ids.foldl tokenizeSymbol state).2.Shaped from this d.liveSymbols (0, d) hd
  intro ids
  induction ids with
  | nil => exact fun _ h => h
  | cons id ids ih =>
    intro state h
    apply ih
    obtain ⟨hshaped, -, hall⟩ := h.tokenizeRules fun r hr => h.rules id r hr
    exact hshaped.modifyRules (g := fun _ => _) fun r hr => Or.inr (hall r hr)

theorem Shaped.withEdits (hd : d.Shaped) (includeTrees : Bool) :
    (d.withEdits includeTrees).2.Shaped := by
  have hadds := d.addsRules_withEdits includeTrees
  have hkeeps : KeepsTermSequences d (d.withEdits includeTrees).2 := by
    rintro Y ⟨s, hs, hflag⟩
    obtain ⟨added, he, -⟩ := hadds.content Y s hs
    exact ⟨_, he, hflag⟩
  constructor
  · intro t ht hhead
    obtain ⟨i, hi⟩ := List.getElem?_of_mem ht
    have hlt : i < d.symbols.length := hadds.length_eq ▸ (List.getElem?_eq_some_iff.mp hi).1
    have hs := List.getElem?_eq_getElem hlt
    obtain ⟨added, he, -⟩ := hadds.content ⟨i⟩ _ hs
    obtain rfl := Option.some.inj (he.symm.trans hi)
    exact hd.made d.symbols[i] (List.mem_of_getElem? hs) hhead
  · intro X r hr
    rcases rule_withEdits_cases includeTrees hr with hr | ⟨parent, -, -, hmem⟩
    · exact (hd.rules X r hr).mono hkeeps
    · obtain ⟨first, second, cost, excluded, -, ⟨kept, -, omitted, position, c, -, rfl⟩ |
        ⟨price, -, rfl⟩⟩ := mem_editsOf_cases hmem
      · exact ⟨by simp [insertionRule, Expansion.isLexical], by simp [insertionRule],
          by simp [insertionRule]⟩
      · exact ⟨by simp [Expansion.isLexical], by simp, by simp⟩

end QueryGrammar.Draft
