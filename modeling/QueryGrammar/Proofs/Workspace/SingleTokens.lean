import QueryGrammar.Proofs.Workspace.Built
/-!
What splitting terminals makes of a draft, rule by rule. A rule stays as it is unless its terminal
is not one token; then it reads the same tokens through symbols made for them, and each of these has
one rule and reads what its name says.
-/
namespace QueryGrammar

open Change

namespace Rule

/-- The rule has a terminal that is not one token. -/
def needsSplit (r : Rule) : Bool :=
  match r.expansion with
  | .terminal term _ => (Text.wordsOf term).length != 1
  | _ => false

end Rule

namespace Draft

/-- The parts read exactly these tokens, one after the other, and carry no semantics. -/
def ReadsOnly (e : Draft) (parts : List SymbolId) (tokens : List String) : Prop :=
  ∀ (w : List Token) (s : List NamedAttachment),
    (∃ ps : List (List Token × List NamedAttachment),
      List.Forall₂ (fun Y p => e.tokenProductions.Derives Y p.1 p.2) parts ps ∧
      w = ps.flatMap (·.1) ∧ s = ps.flatMap (·.2)) ↔ w = tokens.map .word ∧ s = []

/-- What stands in the place of a rule once terminals are single tokens. -/
inductive Normalizes (e : Draft) : Rule → Rule → Prop where
  | kept {r : Rule} (whole : r.needsSplit = false) : Normalizes e r r
  | empty {r : Rule} {term : String} {text : DisplayText} {part : SymbolId}
      (terminal : r.expansion = .terminal term text) (words : Text.wordsOf term = [])
      (live : part ∈ e.liveSymbols) (name : e.symbolName part = "<empty>") :
      Normalizes e r { r with expansion := .unary part false, insertionCost := none }
  | row {r : Rule} {term : String} {first second : SymbolId} {text : DisplayText}
      (terminal : r.expansion = .terminal term text) (several : 2 ≤ (Text.wordsOf term).length)
      (reads : e.ReadsOnly [first, second] (Text.wordsOf term)) :
      Normalizes e r
        { r with
          expansion := .sequence first (some second)
            (if text = .verbatim then .replace term else text) }

/-- `e` is `d` with its terminals split, `count` of them. -/
structure SplitExactly (d : Draft) (count : Nat) (e : Draft) : Prop where
  single : ∀ X ∈ e.liveSymbols, ∀ r ∈ e.rules X, ∀ term text, r.expansion = .terminal term text →
    ∃ token, Text.wordsOf term = [token]
  old : ∀ X ∈ d.liveSymbols, X ∈ e.liveSymbols ∧ e.symbolName X = d.symbolName X ∧
    List.Forall₂ e.Normalizes (d.rules X) (e.rules X)
  new : ∀ X : SymbolId, d.symbols.length ≤ X.index → X.index < e.symbols.length →
    X ∈ e.liveSymbols ∧ (∃ r, e.rules X = [r]) ∧
      ∃ tokens, (∀ t ∈ tokens, IsToken t) ∧ e.symbolName X = rowName tokens ∧
        ∀ w s, e.tokenProductions.Derives X w s ↔ w = tokens.map .word ∧ s = []
  count_eq : count = (d.liveSymbols.flatMap d.rules).countP Rule.needsSplit

variable {d e : Draft} {n : Nat} {K : SymbolId → List String → Prop} {done : List SymbolId}

/-! ### How many rules are split -/

theorem isSome_tokenizeRule? (d : Draft) (r : Rule) :
    (d.tokenizeRule? r).isSome = r.needsSplit := by
  unfold tokenizeRule? Rule.needsSplit
  cases r.expansion with
  | terminal term text =>
    dsimp only
    rcases Text.wordsOf term with _ | ⟨token, _ | ⟨next, rest⟩⟩
    · rfl
    · rfl
    · simp
  | _ => rfl

theorem count_tokenizeRules (d : Draft) (rules : List Rule) :
    (d.tokenizeRules rules).2.1 = rules.countP Rule.needsSplit := by
  induction rules generalizing d with
  | nil => rfl
  | cons r rules ih =>
    have hsome := d.isSome_tokenizeRule? r
    rw [List.countP_cons, ← hsome, tokenizeRules]
    cases d.tokenizeRule? r with
    | none => simp [ih]
    | some result => simp [ih]

theorem Tokenized.rules_undone (h : Tokenized K d done e) {X : SymbolId} (hX : X ∈ d.liveSymbols)
    (hnot : X ∉ done) : e.rules X = d.rules X := by
  obtain ⟨s, hs⟩ := mem_liveSymbols_iff.mp hX
  obtain ⟨hget, hlive⟩ := get?_eq_some_iff.mp hs
  obtain ⟨rules, hrules, -, hsame⟩ := h.content X s hget
  rw [hsame hnot] at hrules
  rw [rules_of_get? hs, rules_of_get? (get?_eq_some_iff.mpr ⟨hrules, hlive⟩)]

/-- Each rule that needs it is counted once, when its symbol has its turn. -/
theorem count_tokenize (hknown : KnowsMade K d)
    (hterms : ∀ id, ∀ r ∈ d.rules id, Splittable r) :
    d.tokenize.1 = (d.liveSymbols.flatMap d.rules).countP Rule.needsSplit := by
  suffices ∀ (todo done : List SymbolId) (state : Nat × Draft), done ++ todo = d.liveSymbols →
      Tokenized K d done state.2 → (todo.foldl tokenizeSymbol state).1 =
        state.1 + (todo.flatMap d.rules).countP Rule.needsSplit by
    have hall := this d.liveSymbols [] (0, d) rfl (.nil K d)
    rw [Nat.zero_add] at hall
    exact hall
  intro todo
  induction todo with
  | nil => simp
  | cons X todo ih =>
    intro done state heq h
    have hX : X ∈ d.liveSymbols := by simp [← heq]
    have hnew : X ∉ done := by
      intro hmem
      have hnodup := d.nodup_liveSymbols
      rw [← heq] at hnodup
      exact (List.nodup_append.mp hnodup).2.2 X hmem X (by simp) rfl
    have hrest := ih (done ++ [X]) (tokenizeSymbol state X) (by simp [heq])
      (h.step hknown hterms hX hnew state.1)
    have hone : (tokenizeSymbol state X).1 = state.1 + (d.rules X).countP Rule.needsSplit := by
      rw [tokenizeSymbol, h.rules_undone hX hnew]
      exact congrArg (state.1 + ·) (state.2.count_tokenizeRules (d.rules X))
    rw [List.foldl_cons, hrest, hone, List.flatMap_cons, List.countP_append, Nat.add_assoc]

/-! ### What becomes of the rules -/

/-- Nothing is known to read tokens from before. -/
def noneKnown (_ : SymbolId) (_ : List String) : Prop := False

theorem needsSplit_eq_false {r : Rule}
    (h : ∀ term text, r.expansion = .terminal term text → Text.wordsOf term = [term]) :
    r.needsSplit = false := by
  unfold Rule.needsSplit
  cases hx : r.expansion with
  | terminal term text => simp [h term text hx]
  | _ => rfl

section Made

variable (h : Tokenized noneKnown d d.liveSymbols e)
include h

/-- A made symbol is named for the tokens it derives. -/
theorem Tokenized.name_of_reads {X : SymbolId} {tokens : List String}
    (hreads : e.Reads d.symbols.length noneKnown X tokens) :
    X ∈ e.liveSymbols ∧ e.symbolName X = rowName tokens := by
  have hlive : X ∈ e.liveSymbols := hreads.live fun _ _ h => h.elim
  have hmade : d.symbols.length ≤ X.index := hreads.known_or_made.resolve_left id
  obtain ⟨s, hs⟩ := mem_liveSymbols_iff.mp hlive
  obtain ⟨hget, -⟩ := get?_eq_some_iff.mp hs
  obtain ⟨⟨us, hus, hname, hothers⟩, -⟩ := h.made X.index s hget hmade
  -- the same symbol derives both rows of tokens, so they are one
  have hsame : tokens.map Token.word = us.map Token.word := by
    have hown := (hreads.derives_iff (fun _ _ h => h)).mpr ⟨rfl, rfl⟩
    exact ((hothers.derives_iff (fun _ _ h => h)).mp hown).1
  have htokens : tokens = us :=
    List.map_injective_iff.mpr (fun _ _ heq => Token.word.inj heq) hsame
  exact ⟨hlive, by rw [symbolName, hget, htokens]; exact hname⟩

theorem Tokenized.normalizes {r r' : Rule} (hsplits : e.Splits d.symbols.length noneKnown r r') :
    e.Normalizes r r' := by
  cases hsplits with
  | same hsingle => exact .kept (needsSplit_eq_false hsingle)
  | nothing hterminal hwords hreads =>
    obtain ⟨hlive, hname⟩ := h.name_of_reads hreads
    exact .empty hterminal hwords hlive hname
  | @row term token rest text first second hterminal hwords hseveral hhead htail =>
    have hlength : 2 ≤ (Text.wordsOf term).length := by
      have hpos := List.length_pos_iff.mpr hseveral
      rw [hwords, List.length_cons]
      omega
    have hreads : e.ReadsOnly [first, second] (Text.wordsOf term) := by
      have hparts := fun ps => @Productions.forall₂_derives_iff _ _ _ _ e.tokenProductions _ ps _
        (.cons (b := ([Token.word token], [])) (fun _ _ => hhead.derives_iff (fun _ _ h => h))
          (.cons (b := (rest.map Token.word, [])) (fun _ _ => htail.derives_iff (fun _ _ h => h))
            .nil))
      intro w s
      simp only [hparts, exists_eq_left, hwords]
      simp
    have hshown : wholeText term text = if text = .verbatim then .replace term else text := by
      cases text <;> rfl
    rw [hshown]
    exact .row hterminal hlength hreads

end Made

/-! ### The drafts that finishing splits -/

/-- The drafts that calls lead to, and what finishing makes of one before its terminals are
split. -/
inductive Underway : Draft → Prop where
  | built {ws : Workspace} (calls : Built ws) : Underway ws.draft
  | filled {d : Draft} (before : Underway d) : Underway d.filled
  | trimmed {d : Draft} (before : Underway d) (start : d.Expands Draft.start) : Underway d.trimmed

theorem Underway.consistent (h : Underway d) : d.Consistent := by
  induction h with
  | built hcalls => exact hcalls.consistent
  | filled _ ih => exact ih.filled
  | trimmed _ hstart ih => exact ih.trimmed hstart

/-- Where no live symbol is named like a made one, none is. -/
theorem Consistent.knowsNone (hd : d.Consistent)
    (hnames : ∀ X ∈ d.liveSymbols, (d.symbolName X).toList.head? ≠ some '<') :
    KnowsMade noneKnown d := by
  intro i s tokens hs _ hname
  have hangle : s.name.toList.head? = some '<' := hname ▸ head_rowName tokens
  have hlive : (⟨i⟩ : SymbolId) ∈ d.liveSymbols :=
    live_of_occurs (hd.made i s hs (by rw [hangle]; decide)).1
  have hnot := hnames ⟨i⟩ hlive
  rw [symbolName, hs] at hnot
  exact hnot hangle

/-- Splitting the terminals of a draft without made symbols changes the rules that need it and
makes the symbols they read their tokens through. -/
theorem Underway.tokenize_exact (h : Underway d)
    (hnames : ∀ X ∈ d.liveSymbols, (d.symbolName X).toList.head? ≠ some '<') :
    SplitExactly d d.tokenize.1 d.tokenize.2 := by
  have hd := h.consistent
  have hknown := hd.knowsNone hnames
  have hterms : ∀ X, ∀ r ∈ d.rules X, Splittable r := fun X r hr => (hd.rules X r hr).term
  have htok := tokenized_tokenize hknown hterms
  constructor
  · intro X _ r hr term text hx
    exact ⟨term, hd.tokenized.single hr hx⟩
  · intro X hX
    exact ⟨htok.live hX, htok.symbolName_eq hX,
      (htok.rules hX).imp fun _ _ hsplits => htok.normalizes hsplits⟩
  · intro X hge hlt
    obtain ⟨⟨tokens, htokens, -, hreads⟩, -⟩ :=
      htok.made X.index _ (List.getElem?_eq_getElem hlt) hge
    obtain ⟨hlive, hname⟩ := htok.name_of_reads hreads
    obtain ⟨r, hrules, -⟩ := hreads.rules_of_made (fun _ _ h => h.elim) hge
    exact ⟨hlive, ⟨r, hrules⟩, tokens, htokens, hname,
      fun _ _ => hreads.derives_iff (fun _ _ h => h)⟩
  · exact count_tokenize hknown hterms

/-- A row of three words, a terminal of one and an empty one. -/
def salutations : Registration Unit := do
  Registration.addRule start (.terminal "to you all" .verbatim)
  Registration.addRule start (.terminal "hi" .verbatim)
  Registration.addRule start (.terminal "" .verbatim)

theorem tokenize_exact_salutations : ∃ d : Draft, Underway d ∧
    (∀ X ∈ d.liveSymbols, (d.symbolName X).toList.head? ≠ some '<') ∧
    SplitExactly d 2 d.tokenize.2 := by
  have hcalls : Keeps Built salutations :=
    .bind (ModuleCall.register (.addRule _ _)).keepsBuilt fun _ =>
      .bind (ModuleCall.register (.addRule _ _)).keepsBuilt fun _ =>
        (ModuleCall.register (.addRule _ _)).keepsBuilt
  have hunderway := Underway.built (hcalls {} .init)
  have hnames : ∀ X ∈ (salutations.perform {}).2.draft.liveSymbols,
      ((salutations.perform {}).2.draft.symbolName X).toList.head? ≠ some '<' := by
    decide +kernel
  have hcount : (salutations.perform {}).2.draft.tokenize.1 = 2 := by decide +kernel
  exact ⟨_, hunderway, hnames, hcount ▸ hunderway.tokenize_exact hnames⟩

end Draft

end QueryGrammar
