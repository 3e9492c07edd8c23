import QueryGrammar.Proofs.Derivation.Map
import QueryGrammar.Proofs.Finish.MadeSymbols
/-!
Splitting terminals keeps every derivation. A rule that is split reads the words of its terminal
through symbols made for them, which carry no semantics, and the rules of these symbols are seen by
no other symbol.
-/
namespace QueryGrammar.Draft

/-- What becomes of a rule once terminals are single tokens. -/
inductive Splits (d : Draft) (n : Nat) (K : SymbolId → List String → Prop) :
    Rule → Rule → Prop where
  | same (r : Rule)
      (single : ∀ term text, r.expansion = .terminal term text → Text.wordsOf term = [term]) :
      Splits d n K r r
  | nothing {r : Rule} {term : String} {text : DisplayText} {empty : SymbolId}
      (terminal : r.expansion = .terminal term text) (words : Text.wordsOf term = [])
      (reads : d.Reads n K empty []) :
      Splits d n K r { r with expansion := .unary empty false, insertionCost := none }
  | row {r : Rule} {term token : String} {rest : List String} {text : DisplayText}
      {first second : SymbolId} (terminal : r.expansion = .terminal term text)
      (words : Text.wordsOf term = token :: rest) (several : rest ≠ [])
      (head : d.Reads n K first [token]) (tail : d.Reads n K second rest) :
      Splits d n K r { r with expansion := .sequence first (some second) (wholeText term text) }

variable {d e : Draft} {n : Nat} {K : SymbolId → List String → Prop}

theorem Splits.mono (h : KeepsMade n d e) {r r' : Rule} (hs : d.Splits n K r r') :
    e.Splits n K r r' := by
  cases hs with
  | same single => exact .same r single
  | nothing terminal words reads => exact .nothing terminal words (reads.mono h)
  | row terminal words several head tail =>
    exact .row terminal words several (head.mono h) (tail.mono h)

/-- The terminal of a rule, if it has one, is in normal form. -/
def HasTerm (r : Rule) : Prop := ∀ term text, r.expansion = .terminal term text → Name.IsTerm term

/-- The terminal of a rule, if it has one, is in normal form or one word by itself. -/
def Splittable (r : Rule) : Prop :=
  ∀ term text, r.expansion = .terminal term text → Name.IsTerm term ∨ Text.wordsOf term = [term]

theorem HasTerm.splittable {r : Rule} (h : HasTerm r) : Splittable r :=
  fun term text hx => Or.inl (h term text hx)

/-- All names of made symbols stand for what the symbols read. -/
def AllMade (n : Nat) (K : SymbolId → List String → Prop) (d : Draft) : Prop :=
  ∀ k, MadeUpTo n K k d

theorem AllMade.adds {roots : List SymbolId} (h : AllMade n K d) (ha : Adds n K d e roots) :
    AllMade n K e :=
  fun k => (h k).adds ha

/-- Bringing a rule into the form for single tokens adds only symbols below its new parts. -/
theorem tokenizeRule?_cases (hn : n ≤ d.symbols.length) (hmade : AllMade n K d) {r : Rule}
    (hterm : Splittable r) :
    (d.tokenizeRule? r = none ∧ d.Splits n K r r) ∨
    ∃ r' e, d.tokenizeRule? r = some (r', e) ∧ Adds n K d e r'.expansion.parts ∧
      e.Splits n K r r' := by
  unfold tokenizeRule?
  split
  next term text hexp =>
    have hnormal : Text.wordsOf term ≠ [term] → Name.IsTerm term :=
      (hterm term text hexp).resolve_right
    split
    next hwords =>
      have hmakes := makes_nothingReader hn (hmade 0)
      exact Or.inr ⟨_, _, rfl, hmakes.adds, .nothing hexp hwords hmakes.reads⟩
    next token hwords =>
      refine Or.inl ⟨rfl, .same r fun t x hx => ?_⟩
      obtain ⟨rfl, -⟩ := Expansion.terminal.inj (hexp.symm.trans hx)
      by_contra hne
      exact hne ((hnormal hne).eq_of_wordsOf hwords ▸ hwords)
    next token next rest hwords =>
      have htokens : ∀ t ∈ token :: next :: rest, IsToken t := fun t ht =>
        (hnormal (by simp [hwords])).isToken (by rw [hwords]; exact ht)
      have hhead := makes_tokenReader hn (hmade 1) (htokens token (by simp))
      have htail := makes_rowSymbol (Nat.le_trans hn hhead.adds.length_le)
        (hmade.adds hhead.adds (rest.length + 1)) fun t ht => htokens t (List.mem_cons_of_mem _ ht)
      refine Or.inr ⟨_, _, rfl, hhead.adds.trans htail.adds, ?_⟩
      exact .row hexp hwords (by simp) (hhead.reads.mono htail.adds.keepsMade) htail.reads
  next hexp => exact Or.inl ⟨rfl, .same r fun t x hx => absurd hx (hexp t x)⟩

theorem tokenizeRules_spec (hn : n ≤ d.symbols.length) (hmade : AllMade n K d) {rules : List Rule}
    (hterms : ∀ r ∈ rules, Splittable r) :
    Adds n K d (d.tokenizeRules rules).2.2
        ((d.tokenizeRules rules).1.flatMap (·.expansion.parts)) ∧
      List.Forall₂ ((d.tokenizeRules rules).2.2.Splits n K) rules (d.tokenizeRules rules).1 := by
  induction rules generalizing d with
  | nil => exact ⟨Adds.refl n K d _, .nil⟩
  | cons r rules ih =>
    have hrest := fun q hq => hterms q (List.mem_cons_of_mem _ hq)
    rcases tokenizeRule?_cases hn hmade (hterms r (by simp)) with ⟨heq, hsplits⟩ |
      ⟨r', e, heq, hadds, hsplits⟩
    · obtain ⟨hadds, hall⟩ := ih hn hmade hrest
      simp only [tokenizeRules, heq]
      exact ⟨hadds.mono fun x hx => by simp [hx], .cons (hsplits.mono hadds.keepsMade) hall⟩
    · obtain ⟨hadds', hall⟩ := ih (Nat.le_trans hn hadds.length_le) (hmade.adds hadds) hrest
      simp only [tokenizeRules, heq]
      exact ⟨hadds.trans hadds', .cons (hsplits.mono hadds'.keepsMade) hall⟩

/-! ### All symbols -/

/-- `e` is `d` with the rules of the symbols in `done` split, and with symbols made for them. -/
structure Tokenized (K : SymbolId → List String → Prop) (d : Draft) (done : List SymbolId)
    (e : Draft) : Prop where
  content : ∀ (id : SymbolId) s, d.symbols[id.index]? = some s →
    ∃ rules, e.symbols[id.index]? = some { s with rules := rules } ∧
      (id ∈ done → List.Forall₂ (e.Splits d.symbols.length K) s.rules rules) ∧
      (id ∉ done → rules = s.rules)
  made : ∀ (i : Nat) s, e.symbols[i]? = some s → d.symbols.length ≤ i →
    (∃ tokens, (∀ t ∈ tokens, IsToken t) ∧ s.name = rowName tokens ∧
      e.Reads d.symbols.length K ⟨i⟩ tokens) ∧
    ∃ X ∈ done, e.Below d.symbols.length ((e.rules X).flatMap (·.expansion.parts)) ⟨i⟩
  names : (d.symbols.map (·.name)).Nodup → (e.symbols.map (·.name)).Nodup
  rest : e = { d with symbols := e.symbols }

theorem Tokenized.nil (K : SymbolId → List String → Prop) (d : Draft) : Tokenized K d [] d where
  content id s hs := ⟨s.rules, hs, by simp, fun _ => rfl⟩
  made i s hs hi := absurd (List.getElem?_eq_some_iff.mp hs).1 (by omega)
  names h := h
  rest := rfl

variable {done : List SymbolId}

theorem Tokenized.length_le (h : Tokenized K d done e) : d.symbols.length ≤ e.symbols.length := by
  by_contra hlt
  have hsome := List.getElem?_eq_getElem (l := d.symbols) (i := e.symbols.length) (by omega)
  obtain ⟨rules, hrules, -⟩ := h.content ⟨e.symbols.length⟩ _ hsome
  have hnone := (List.getElem?_eq_some_iff.mp hrules).1
  simp at hnone

/-- Whatever is named for tokens is known to read them. -/
def KnowsMade (K : SymbolId → List String → Prop) (d : Draft) : Prop :=
  ∀ (i : Nat) s tokens, d.symbols[i]? = some s → (∀ t ∈ tokens, IsToken t) →
    s.name = rowName tokens → K ⟨i⟩ tokens

/-- No name of a registered symbol is one of a made symbol. -/
theorem knowsMade_of_bracketed (hnames : ∀ s ∈ d.symbols, s.name.toList.head? = some '[') :
    KnowsMade K d := by
  intro i s tokens hs _ hname
  have hangle := head_rowName tokens
  rw [← hname, hnames s (List.mem_of_getElem? hs)] at hangle
  exact absurd hangle (by decide)

theorem Tokenized.allMade (h : Tokenized K d done e) (hknown : KnowsMade K d) :
    AllMade d.symbols.length K e := by
  intro k i s tokens hs ht _ hname
  rcases Nat.lt_or_ge i d.symbols.length with hlt | hge
  · have hd := List.getElem?_eq_getElem hlt
    obtain ⟨rules, hrules, -⟩ := h.content ⟨i⟩ _ hd
    have heq := Option.some.inj (hrules.symm.trans hs)
    refine .known hlt (hknown i _ tokens hd ht ?_)
    rw [← hname, ← heq]
  · obtain ⟨⟨us, hu, hname', hreads⟩, -⟩ := h.made i s hs hge
    rw [rowName_injective ht hu (hname.symm.trans hname')]
    exact hreads

theorem rules_replaceRules_of_ne (d : Draft) {id X : SymbolId} (rules : List Rule)
    (hne : id.index ≠ X.index) :
    (d.modifySymbol id fun s => { s with rules := rules }).rules X = d.rules X := by
  simp only [Draft.rules, get?, d.getElem?_modifyRules id fun _ => rules, if_neg hne,
    Option.map_id']

theorem Below.exists_root {roots : List SymbolId} {id : SymbolId} (h : d.Below n roots id) :
    ∃ x, x ∈ roots := by
  induction h with
  | root hmem => exact ⟨_, hmem⟩
  | step _ _ _ _ ih => exact ih

theorem Tokenized.step (h : Tokenized K d done e) (hknown : KnowsMade K d)
    (hterms : ∀ id, ∀ r ∈ d.rules id, Splittable r) {id : SymbolId} (hid : id ∈ d.liveSymbols)
    (hnew : id ∉ done) (count : Nat) :
    Tokenized K d (done ++ [id]) (tokenizeSymbol (count, e) id).2 := by
  obtain ⟨s, hs⟩ := mem_liveSymbols_iff.mp hid
  obtain ⟨hget, hlive⟩ := get?_eq_some_iff.mp hs
  obtain ⟨_, hsame, -, hrules⟩ := h.content id s hget
  obtain rfl := hrules hnew
  have herules : e.rules id = s.rules := rules_of_get? (get?_eq_some_iff.mpr ⟨hsame, hlive⟩)
  have hlt : id.index < d.symbols.length := (List.getElem?_eq_some_iff.mp hget).1
  have hsplittable : ∀ r ∈ s.rules, Splittable r := fun r hr =>
    hterms id r (by rw [rules_of_get? hs]; exact hr)
  obtain ⟨hadds, hall⟩ := tokenizeRules_spec h.length_le (h.allMade hknown) hsplittable
  unfold tokenizeSymbol
  rw [herules]
  dsimp only
  generalize e.tokenizeRules s.rules = result at hadds hall
  obtain ⟨rules', _, f⟩ := result
  dsimp only at hadds hall ⊢
  have hcontent := f.getElem?_modifyRules id fun _ => rules'
  have hother := fun X => @rules_replaceRules_of_ne f id X rules'
  have hnamesKept := f.names_modifySymbol id fun _ => rules'
  have hrest : (f.modifySymbol id fun s => { s with rules := rules' }) =
      { f with symbols := (f.modifySymbol id fun s => { s with rules := rules' }).symbols } := rfl
  generalize (f.modifySymbol id fun s => { s with rules := rules' }) = g at *
  have hkeeps : KeepsMade d.symbols.length f g := fun X hX _ => hother X (by omega)
  have hidrules : g.rules id = rules' := by
    refine rules_of_get? (s := { s with rules := rules' }) (get?_eq_some_iff.mpr ⟨?_, hlive⟩)
    rw [hcontent, hadds.old _ _ hsame]
    simp
  constructor
  · intro X t ht
    obtain ⟨rules, hX, hdone, hpending⟩ := h.content X t ht
    rw [hcontent, hadds.old _ _ hX]
    by_cases hne : id.index = X.index
    · obtain rfl : id = X := by
        cases id
        cases X
        exact congrArg SymbolId.mk hne
      obtain rfl := Option.some.inj (hget.symm.trans ht)
      refine ⟨rules', by simp, fun _ => ?_, fun hX => absurd (by simp) hX⟩
      exact hall.imp fun _ _ hsplits => hsplits.mono hkeeps
    · have hXid : X ≠ id := fun heq => hne (heq ▸ rfl)
      refine ⟨rules, by simp [hne], fun hX => ?_, fun hX => ?_⟩
      · have hX : X ∈ done := by simpa [hXid] using hX
        exact (hdone hX).imp fun _ _ hsplits =>
          (hsplits.mono hadds.keepsMade).mono hkeeps
      · exact hpending fun hmem => hX (by simp [hmem])
  · intro i t ht hi
    have hne : id.index ≠ i := by omega
    simp only [hcontent, if_neg hne, Option.map_id'] at ht
    rcases Nat.lt_or_ge i e.symbols.length with hold | hfresh
    · have hei := List.getElem?_eq_getElem hold
      obtain rfl := Option.some.inj ((hadds.old i _ hei).symm.trans ht)
      obtain ⟨⟨tokens, htokens, hname, hreads⟩, X, hX, hbelow⟩ := h.made i _ hei hi
      refine ⟨⟨tokens, htokens, hname, (hreads.mono hadds.keepsMade).mono hkeeps⟩, X,
        by simp [hX], ?_⟩
      have hXrules : g.rules X = e.rules X := by
        rw [hother X fun heq => hnew (by cases id; cases X; cases heq; exact hX)]
        refine rules_eq_of_symbols (hadds.old _) fun hnil => ?_
        obtain ⟨x, hx⟩ := hbelow.exists_root
        simp [hnil] at hx
      rw [hXrules]
      exact (hbelow.mono hadds.keepsMade).mono hkeeps
    · obtain ⟨⟨tokens, htokens, hname, hreads⟩, hbelow⟩ := hadds.new i t ht hfresh
      refine ⟨⟨tokens, htokens, hname, hreads.mono hkeeps⟩, id, by simp, ?_⟩
      rw [hidrules]
      exact hbelow.mono hkeeps
  · intro hd
    rw [hnamesKept]
    exact hadds.names (h.names hd)
  · rw [hrest, hadds.rest, h.rest]

/-- All live symbols have been split, each once. -/
theorem tokenized_tokenize (hknown : KnowsMade K d)
    (hterms : ∀ id, ∀ r ∈ d.rules id, Splittable r) : Tokenized K d d.liveSymbols d.tokenize.2 := by
  suffices ∀ (todo done : List SymbolId) (state : Nat × Draft), done ++ todo = d.liveSymbols →
      Tokenized K d done state.2 → Tokenized K d d.liveSymbols (todo.foldl tokenizeSymbol state).2 from
    this d.liveSymbols [] (0, d) rfl (.nil K d)
  intro todo
  induction todo with
  | nil =>
    intro done state heq h
    rw [← heq, List.append_nil]
    exact h
  | cons id todo ih =>
    intro done state heq h
    have hnodup := d.nodup_liveSymbols
    rw [← heq] at hnodup
    have hnew : id ∉ done := fun hmem =>
      (List.nodup_append.mp hnodup).2.2 id hmem id (by simp) rfl
    exact ih (done ++ [id]) _ (by simp [heq])
      (h.step hknown hterms (by simp [← heq]) hnew state.1)

/-! ### Derivations -/

/-- The tokens of a terminal once each is one token, where one name stands for none. -/
def oneToken (term : String) : List String := if term = emptyName then [] else [term]

/-- The rules of a draft whose terminals are single tokens. -/
def tokenProductions (d : Draft) : Productions SymbolId Rule Token NamedAttachment :=
  d.productionsBy oneToken

/-- A made symbol derives the tokens it reads and nothing else. -/
theorem Reads.derives_iff (hK : ∀ id tokens, ¬ K id tokens) {id : SymbolId} {tokens : List String}
    (h : d.Reads n K id tokens)
    {w : List Token} {s : List NamedAttachment} :
    d.tokenProductions.Derives id w s ↔ w = tokens.map .word ∧ s = [] := by
  induction h generalizing w s with
  | known _ hreads => exact absurd hreads (hK _ _)
  | @nothing id _ hrules =>
    rw [Productions.derives_iff]
    simp [tokenProductions, productionsBy, hrules, Expansion.parts, ownTokens, oneToken]
  | @token id token _ htoken hrules =>
    have hne := htoken.ne_emptyName
    rw [Productions.derives_iff]
    simp [tokenProductions, productionsBy, hrules, Expansion.parts, ownTokens, oneToken, hne]
  | @row id first second token rest _ _ hrules _ _ ihhead ihtail =>
    have hparts := fun ps => @Productions.forall₂_derives_iff _ _ _ _ d.tokenProductions _ ps _
      (.cons (b := ([.word token], [])) (fun _ _ => ihhead)
        (.cons (b := (rest.map .word, [])) (fun _ _ => ihtail) .nil))
    rw [Productions.derives_iff]
    constructor
    · rintro ⟨r, ps, hr, hps, rfl, rfl⟩
      obtain rfl : r = { expansion := .sequence first (some second) .verbatim } := by
        simpa [tokenProductions, productionsBy, hrules] using hr
      obtain rfl := (hparts ps).mp hps
      simp [tokenProductions, productionsBy, ownTokens]
    · rintro ⟨rfl, rfl⟩
      refine ⟨{ expansion := .sequence first (some second) .verbatim }, _, ?_,
        (hparts _).mpr rfl, ?_, ?_⟩
      · simp [tokenProductions, productionsBy, hrules]
      · simp [tokenProductions, productionsBy, ownTokens]
      · simp [tokenProductions, productionsBy]

/-- The terminal of `r` is read through the parts of `r'`, and nothing else is. -/
structure ReadsThrough (e : Draft) (term : String) (r r' : Rule) : Prop where
  semantic : r'.semantic = r.semantic
  tokens : e.tokenProductions.tokens r' = []
  reads : ∃ qs : List (List Token × List NamedAttachment),
    (qs.flatMap (·.1) = (Text.wordsOf term).map .word ∧ qs.flatMap (·.2) = []) ∧
    ∀ ps : List (List Token × List NamedAttachment),
      List.Forall₂ (fun Y p => e.tokenProductions.Derives Y p.1 p.2) r'.expansion.parts ps ↔
        ps = qs

theorem Splits.same_or_through (hK : ∀ id tokens, ¬ K id tokens) {r r' : Rule}
    (h : e.Splits n K r r') :
    (r' = r ∧ ∀ term text, r.expansion = .terminal term text → Text.wordsOf term = [term]) ∨
    ∃ term text, r.expansion = .terminal term text ∧ e.ReadsThrough term r r' := by
  cases h with
  | same hsingle => exact Or.inl ⟨rfl, hsingle⟩
  | @nothing term text empty hterminal hwords hreads =>
    refine Or.inr ⟨term, text, hterminal, rfl, rfl, [([], [])], by simp [hwords], fun ps => ?_⟩
    exact Productions.forall₂_derives_iff (.cons (fun _ _ => hreads.derives_iff hK) .nil)
  | @row term token rest text first second hterminal hwords _ hhead htail =>
    refine Or.inr ⟨term, text, hterminal, rfl, rfl,
      [([.word token], []), (rest.map .word, [])], by simp [hwords], fun ps => ?_⟩
    exact Productions.forall₂_derives_iff (.cons (fun _ _ => hhead.derives_iff hK)
      (.cons (fun _ _ => htail.derives_iff hK) .nil))

/-- The rules that a draft with single tokens has in the place of those before. -/
theorem Tokenized.rules (h : Tokenized K d d.liveSymbols e) {X : SymbolId}
    (hX : X ∈ d.liveSymbols) :
    List.Forall₂ (e.Splits d.symbols.length K) (d.rules X) (e.rules X) := by
  obtain ⟨s, hs⟩ := mem_liveSymbols_iff.mp hX
  obtain ⟨hget, hlive⟩ := get?_eq_some_iff.mp hs
  obtain ⟨rules, hrules, hsplits, -⟩ := h.content X s hget
  rw [rules_of_get? hs, rules_of_get? (get?_eq_some_iff.mpr ⟨hrules, hlive⟩)]
  exact hsplits hX

/-- The parts of rules are live, and their terms are in normal form. -/
structure WellFormed (d : Draft) : Prop where
  parts : ∀ X, ∀ r ∈ d.rules X, ∀ Y ∈ r.expansion.parts, Y ∈ d.liveSymbols
  terms : ∀ X, ∀ r ∈ d.rules X, HasTerm r

theorem Tokenized.attached_eq (h : Tokenized K d done e) {r r' : Rule}
    (hr : r'.semantic = r.semantic) :
    e.tokenProductions.attached r' = d.productions.attached r := by
  have hv : e.vocabulary = d.vocabulary := by rw [h.rest]
  simp [tokenProductions, productions, productionsBy, hr, hv]

theorem Tokenized.tokens_eq (h : Tokenized K d done e) {r : Rule} (hterm : HasTerm r)
    (hsingle : ∀ term text, r.expansion = .terminal term text → Text.wordsOf term = [term]) :
    e.tokenProductions.tokens r = d.productions.tokens r := by
  have hc : e.entityCategories = d.entityCategories := by rw [h.rest]
  cases hx : r.expansion with
  | terminal term text =>
    have hwords := hsingle term text hx
    have hmem : term ∈ Text.wordsOf term := by simp [hwords]
    have hne := ((hterm term text hx).isToken hmem).ne_emptyName
    simp [tokenProductions, productions, productionsBy, ownTokens, hx, oneToken, hne, hwords]
  | _ => simp [tokenProductions, productions, productionsBy, ownTokens, hx, entityCategoryName, hc]

/-- Splitting terminals leaves every live symbol its derivations. -/
theorem Tokenized.derives_iff (hK : ∀ id tokens, ¬ K id tokens)
    (h : Tokenized K d d.liveSymbols e) (hd : d.WellFormed) {X : SymbolId} (hX : X ∈ d.liveSymbols)
    {w : List Token} {s : List NamedAttachment} :
    e.tokenProductions.Derives X w s ↔ d.productions.Derives X w s := by
  constructor
  · refine fun hder => Productions.Derives.induction
      (P := fun X w s => X ∈ d.liveSymbols → d.productions.Derives X w s) ?_ hder hX
    intro X r' ps hr' hps hX
    obtain ⟨r, hr, hsplits⟩ := (exists_mem_of_forall₂ (h.rules hX)).2 r' hr'
    rcases hsplits.same_or_through hK with ⟨rfl, hsingle⟩ | ⟨term, text, hterm, hthrough⟩
    · rw [h.tokens_eq (hd.terms X r' hr) hsingle, h.attached_eq rfl]
      refine .intro hr (List.forall₂_iff_get.mpr ?_)
      obtain ⟨hlength, hget⟩ := List.forall₂_iff_get.mp hps
      exact ⟨hlength, fun i h₁ h₂ => (hget i h₁ h₂).2 (hd.parts X r' hr _ (List.get_mem _ _))⟩
    · obtain ⟨qs, ⟨hw, hs⟩, hiff⟩ := hthrough.reads
      obtain rfl := (hiff ps).mp (hps.imp fun _ _ hp => hp.1)
      rw [hthrough.tokens, hw, hs, h.attached_eq hthrough.semantic]
      refine Productions.derives_iff.mpr ⟨r, [], hr, ?_, ?_, by simp⟩
      · simp [productions, productionsBy, hterm, Expansion.parts]
      · simp [productions, productionsBy, hterm, ownTokens]
  · refine Productions.Derives.induction (P := fun X w s => e.tokenProductions.Derives X w s) ?_
    intro X r ps hr hps
    obtain ⟨r', hr', hsplits⟩ := (exists_mem_of_forall₂ (h.rules (live_of_mem_rules hr))).1 r hr
    rcases hsplits.same_or_through hK with ⟨rfl, hsingle⟩ | ⟨term, text, hterm, hthrough⟩
    · rw [← h.tokens_eq (hd.terms X r' hr) hsingle, ← h.attached_eq rfl]
      exact .intro hr' (hps.imp fun _ _ hp => hp.2)
    · obtain ⟨qs, ⟨hw, hs⟩, hiff⟩ := hthrough.reads
      obtain rfl : ps = [] := by
        simpa [productions, productionsBy, hterm, Expansion.parts] using hps
      refine Productions.derives_iff.mpr ⟨r', qs, hr', (hiff qs).mpr rfl, ?_, ?_⟩
      · simp [hthrough.tokens, hw, productions, productionsBy, hterm, ownTokens]
      · simp [hs, h.attached_eq hthrough.semantic]

/-! ### Rules of single tokens -/

theorem Tokenized.live (h : Tokenized K d done e) {X : SymbolId} (hX : X ∈ d.liveSymbols) :
    X ∈ e.liveSymbols := by
  obtain ⟨s, hs⟩ := mem_liveSymbols_iff.mp hX
  obtain ⟨hget, hlive⟩ := get?_eq_some_iff.mp hs
  obtain ⟨rules, hrules, -⟩ := h.content X s hget
  exact mem_liveSymbols_iff.mpr ⟨_, get?_eq_some_iff.mpr ⟨hrules, hlive⟩⟩

theorem Tokenized.symbolName_eq (h : Tokenized K d done e) {X : SymbolId}
    (hX : X ∈ d.liveSymbols) : e.symbolName X = d.symbolName X := by
  obtain ⟨s, hs⟩ := mem_liveSymbols_iff.mp hX
  obtain ⟨rules, hrules, -⟩ := h.content X s (get?_eq_some_iff.mp hs).1
  simp [symbolName, hrules, (get?_eq_some_iff.mp hs).1]

/-- A live symbol is one from before or one that was made. -/
theorem Tokenized.live_cases (h : Tokenized K d done e) {X : SymbolId} (hX : X ∈ e.liveSymbols) :
    X ∈ d.liveSymbols ∨ d.symbols.length ≤ X.index := by
  obtain ⟨s, hs⟩ := mem_liveSymbols_iff.mp hX
  obtain ⟨hget, hlive⟩ := get?_eq_some_iff.mp hs
  rcases Nat.lt_or_ge X.index d.symbols.length with hlt | hge
  · have hd := List.getElem?_eq_getElem hlt
    obtain ⟨rules, hrules, -⟩ := h.content X _ hd
    have heq := Option.some.inj (hrules.symm.trans hget)
    refine Or.inl (mem_liveSymbols_iff.mpr ⟨_, get?_eq_some_iff.mpr ⟨hd, ?_⟩⟩)
    rw [← heq] at hlive
    exact hlive
  · exact Or.inr hge

/-- What is known to read tokens is live. -/
def KnowsLive (K : SymbolId → List String → Prop) (d : Draft) : Prop :=
  ∀ id tokens, K id tokens → id ∈ d.liveSymbols

theorem Reads.live (hK : KnowsLive K d) {id : SymbolId} {tokens : List String}
    (h : d.Reads n K id tokens) : id ∈ d.liveSymbols := by
  cases h with
  | known _ hreads => exact hK _ _ hreads
  | nothing _ hrules => exact live_of_mem_rules (hrules ▸ List.mem_singleton_self _)
  | token _ _ hrules => exact live_of_mem_rules (hrules ▸ List.mem_singleton_self _)
  | row _ _ hrules _ _ => exact live_of_mem_rules (hrules ▸ List.mem_singleton_self _)

/-- The rules that a made symbol can have. -/
inductive MadeRule (e : Draft) : Rule → Prop where
  | nothing : MadeRule e { expansion := .terminal emptyName .silent }
  | token {token : String} (isToken : IsToken token) :
      MadeRule e { expansion := .terminal token .verbatim }
  | row {first second : SymbolId} (head : first ∈ e.liveSymbols) (tail : second ∈ e.liveSymbols) :
      MadeRule e { expansion := .sequence first (some second) .verbatim }

theorem Reads.rules_of_made (hK : KnowsLive K d) {X : SymbolId} {tokens : List String}
    (h : d.Reads n K X tokens) (hmade : n ≤ X.index) : ∃ r, d.rules X = [r] ∧ d.MadeRule r := by
  cases h with
  | known hold => exact absurd hold (Nat.not_lt.mpr hmade)
  | nothing _ hrules => exact ⟨_, hrules, .nothing⟩
  | token _ htoken hrules => exact ⟨_, hrules, .token htoken⟩
  | row _ _ hrules hhead htail => exact ⟨_, hrules, .row (hhead.live hK) (htail.live hK)⟩

theorem MadeRule.edit_eq {r : Rule} (h : d.MadeRule r) : r.edit = none := by
  cases h <;> rfl

theorem Splits.edit_eq {r r' : Rule} (h : d.Splits n K r r') : r'.edit = r.edit := by
  cases h <;> rfl

theorem Splits.part_cases (hK : KnowsLive K d) {r r' : Rule} (h : d.Splits n K r r')
    {Y : SymbolId} (hY : Y ∈ r'.expansion.parts) :
    Y ∈ r.expansion.parts ∨ Y ∈ d.liveSymbols := by
  cases h with
  | same => exact Or.inl hY
  | nothing _ _ hreads =>
    rw [List.mem_singleton.mp hY]
    exact Or.inr (hreads.live hK)
  | row _ _ _ hhead htail =>
    rcases List.mem_cons.mp hY with rfl | hY
    · exact Or.inr (hhead.live hK)
    · rw [List.mem_singleton.mp hY]
      exact Or.inr (htail.live hK)

section Known

variable (h : Tokenized K d d.liveSymbols e) (hK : KnowsLive K d)
include h hK

theorem Tokenized.knowsLive : KnowsLive K e := fun id tokens hreads => h.live (hK id tokens hreads)

/-- A made symbol has one rule. -/
theorem Tokenized.rules_made {X : SymbolId} (hX : X ∈ e.liveSymbols)
    (hge : d.symbols.length ≤ X.index) : ∃ r, e.rules X = [r] ∧ e.MadeRule r := by
  obtain ⟨s, hs⟩ := mem_liveSymbols_iff.mp hX
  obtain ⟨⟨tokens, -, -, hreads⟩, -⟩ := h.made X.index s (get?_eq_some_iff.mp hs).1 hge
  exact hreads.rules_of_made (h.knowsLive hK) hge

/-- A rule is what has become of one from before, or belongs to a symbol that was made. -/
theorem Tokenized.rule_cases {X : SymbolId} {r' : Rule} (hr' : r' ∈ e.rules X) :
    (X ∈ d.liveSymbols ∧ ∃ r ∈ d.rules X, e.Splits d.symbols.length K r r') ∨ e.MadeRule r' := by
  have hX := live_of_mem_rules hr'
  rcases h.live_cases hX with hold | hge
  · exact Or.inl ⟨hold, (exists_mem_of_forall₂ (h.rules hold)).2 r' hr'⟩
  · obtain ⟨r, hrules, hmade⟩ := h.rules_made hK hX hge
    rw [hrules, List.mem_singleton] at hr'
    exact Or.inr (hr' ▸ hmade)

/-- The parts of all rules are live still. -/
theorem Tokenized.parts_live
    (hparts : ∀ X, ∀ r ∈ d.rules X, ∀ Y ∈ r.expansion.parts, Y ∈ d.liveSymbols) {X : SymbolId}
    {r : Rule} (hr : r ∈ e.rules X) {Y : SymbolId} (hY : Y ∈ r.expansion.parts) :
    Y ∈ e.liveSymbols := by
  rcases h.rule_cases hK hr with ⟨-, q, hq, hsplits⟩ | hmade
  · rcases hsplits.part_cases (h.knowsLive hK) hY with hY | hY
    · exact h.live (hparts X q hq Y hY)
    · exact hY
  · cases hmade with
    | nothing => simp [Expansion.parts] at hY
    | token => simp [Expansion.parts] at hY
    | row hhead htail =>
      rcases List.mem_cons.mp hY with rfl | hY
      · exact hhead
      · rw [List.mem_singleton.mp hY]
        exact htail

/-- Where no rule was an edit, none is. -/
theorem Tokenized.unedited (hd : ∀ X, ∀ r ∈ d.rules X, r.edit = none) {X : SymbolId} {r : Rule}
    (hr : r ∈ e.rules X) : r.edit = none := by
  rcases h.rule_cases hK hr with ⟨-, q, hq, hsplits⟩ | hmade
  · rw [hsplits.edit_eq]
    exact hd X q hq
  · exact hmade.edit_eq

end Known

end QueryGrammar.Draft
