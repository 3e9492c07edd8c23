import QueryGrammar.Proofs.Decided
import QueryGrammar.Proofs.Draft.PlainRules
/-!
Stages of a longer registration: workspaces whose draft has been enlarged by known additions, while
the words, families and categories that are shared are those of a known workspace. From a stage, each
further step is decided, and also a refused one leaves the shared words and operands registered.
-/
namespace QueryGrammar

open Change Conjunction

/-- What is shared is registered: the operands of families and the words stand at numbers that have
been given away, at least `count` of them, and the connectives combine by functions. -/
structure Rooted (count : Nat) (ws : Workspace) : Prop where
  count : count ≤ ws.draft.symbols.length
  operands : ∀ x ∈ ws.families, x.1.index < ws.draft.symbols.length
  words : ∀ X, some X ∈ [ws.notWord, ws.who, ws.that, ws.possessiveSuffix] →
    X.index < ws.draft.symbols.length
  functions : ∀ c, ws.connectives = some c →
    ws.draft.vocabulary.get? c.intersect = some (.function intersectName 1 maxOperands) ∧
      ws.draft.vocabulary.get? c.union = some (.function unionName 1 maxOperands)

theorem rooted_empty : Rooted 0 {} where
  count := Nat.zero_le _
  operands := by simp
  words := by simp
  functions := by simp

/-- What is shared stays registered while symbols and semantics are only appended. -/
theorem Rooted.mono {count : Nat} {ws : Workspace} {e : Draft} (h : Rooted count ws)
    (hsymbols : ws.draft.symbols.length ≤ e.symbols.length)
    (hdefinitions : ws.draft.vocabulary.definitions <+: e.vocabulary.definitions) :
    Rooted count { ws with draft := e } where
  count := h.count.trans hsymbols
  operands x hx := (h.operands x hx).trans_le hsymbols
  words X hX := (h.words X hX).trans_le hsymbols
  functions c hc := by
    obtain ⟨hintersect, hunion⟩ := h.functions c hc
    exact ⟨getElem?_of_isPrefix hdefinitions hintersect, getElem?_of_isPrefix hdefinitions hunion⟩

namespace Draft

/-- The additions `b` continue `a`. -/
structure Additions.Continued (a b : Additions) : Prop where
  symbols : a.symbols <+: b.symbols
  semantics : a.semantics <+: b.semantics

namespace Additions.Continued

variable {a b c : Additions}

theorem refl (a : Additions) : a.Continued a := ⟨List.prefix_rfl, List.prefix_rfl⟩

theorem trans (hab : a.Continued b) (hbc : b.Continued c) : a.Continued c :=
  ⟨hab.symbols.trans hbc.symbols, hab.semantics.trans hbc.semantics⟩

theorem addSymbol (a : Additions) (part : String) (isTermSequence : Bool) :
    a.Continued (a.addSymbol part isTermSequence) :=
  ⟨List.prefix_append _ _, List.prefix_rfl⟩

theorem addSemantic (a : Additions) (definition : Semantic) : a.Continued (a.addSemantic definition) :=
  ⟨List.prefix_rfl, List.prefix_append _ _⟩

theorem addCategory (a : Additions) (c : EntityCategory) : a.Continued (a.addCategory c) :=
  ⟨List.prefix_rfl, List.prefix_rfl⟩

end Additions.Continued

end Draft

/-- The forms of a word pass all checks, which are the same for every draft where its name is free. -/
def IsWord (part : String) (accepted substituted : List String) (cost : Option Float) : Prop :=
  ∃ (d : Draft) (kept : List LexicalEntry),
    d.checkLexical part (TermSequence.word part accepted substituted cost).entries none = .ok kept

theorem Draft.enlarges_addWord {d : Draft} {a : Draft.Additions} {part : String}
    {accepted substituted : List String} {cost : Option Float} (hpart : d.Vacant a part)
    (hword : IsWord part accepted substituted cost) :
    d.Enlarges a (·.addWord part accepted substituted cost) (¬ d.Buried (Name.bracketed part))
      ⟨d.symbols.length + a.symbols.length⟩ (a.addSymbol part true) := by
  obtain ⟨f, kept, hcheck⟩ := hword
  exact enlarges_addLexical hpart hcheck

/-- The draft is `d` with the additions `a`, everything else is as in `r`, and what is shared is
registered. -/
structure Stage (count : Nat) (d : Draft) (a : Draft.Additions) (r t : Workspace) : Prop where
  draft : d.Enlarged a t.draft
  rest : t = { r with draft := t.draft }
  rooted : Rooted count t

namespace Stage

variable {α : Type} {count : Nat} {d : Draft} {a b : Draft.Additions} {r t : Workspace} {C : Prop}
  {v : α} {X : SymbolId}

theorem refl {ws : Workspace} (h : Rooted count ws) : Stage count ws.draft {} ws ws :=
  ⟨.refl _, rfl, h⟩

theorem families (h : Stage count d a r t) : t.families = r.families :=
  by rw [h.rest]

theorem connectives (h : Stage count d a r t) : t.connectives = r.connectives :=
  by rw [h.rest]

theorem enlarge {e : Draft} (h : Stage count d a r t) (he : d.Enlarged b e) (hab : a.Continued b) :
    Stage count d b r { t with draft := e } where
  draft := he
  rest := congrArg (fun ws : Workspace => { ws with draft := e }) h.rest
  rooted := by
    refine h.rooted.mono ?_ ?_
    · rw [h.draft.length, he.length]
      exact Nat.add_le_add_left hab.symbols.length_le _
    · rw [h.draft.definitions, he.definitions]
      exact (List.prefix_append_right_inj _).mpr hab.semantics

/-! ### Steps -/

/-- A call that is decided for the draft is decided for the workspace. -/
theorem call {f : Draft → Outcome (α × Draft)} (hf : d.Enlarges a f C v b) (hab : a.Continued b) :
    Decides (Rooted count) (Stage count d a r) (Registration.call f) C v (Stage count d b r) := by
  intro t ht
  have hrefused : { t with draft := t.draft } = t := rfl
  simp only [Registration.call, perform_within, perform_call]
  cases he : f t.draft with
  | error err => exact ⟨hf.of_error ht.draft he, hrefused ▸ ht.rooted⟩
  | ok p =>
    obtain ⟨hC, hv, hadded⟩ := hf.of_ok ht.draft he
    exact ⟨hC, hv, ht.enlarge hadded hab⟩

theorem ask {E P : Workspace → Prop} {f : Draft → Outcome α} (h : ∀ t, P t → f t.draft = .ok v) :
    Decides E P (Registration.ask f) True v P :=
  Decides.get_bind fun t ht => Decides.ofOutcome (h t ht)

theorem ask_bind {β : Type} {E P Q : Workspace → Prop} {f : Draft → Outcome α}
    {g : α → Registration β} {w : β}
    (h : ∀ t, P t → ∃ a, f t.draft = .ok a ∧ Decides E P (g a) C w Q) :
    Decides E P (Registration.ask f >>= g) C w Q := by
  intro t ht
  obtain ⟨a, ha, hg⟩ := h t ht
  have hperform : (Registration.ask f >>= g).perform t = (g a).perform t := by
    have hask : (Registration.ask f).perform t = (.ok a, t) := congrArg (·, t) ha
    rw [perform_bind, hask]
  rw [hperform]
  exact hg t ht

/-- Something that is shared is put down beside the draft. -/
theorem store {f : Workspace → Workspace}
    (hf : ∀ ws e, f { ws with draft := e } = { f ws with draft := e })
    (hrooted : ∀ t, Stage count d a r t → Rooted count (f t)) :
    Decides (Rooted count) (Stage count d a r) (modify f) True ⟨⟩ (Stage count d a (f r)) := by
  refine Decides.modify fun t ht => ?_
  have hdraft : (f t).draft = t.draft := by
    have hsame := congrArg Workspace.draft (hf t t.draft)
    exact hsame
  refine ⟨hdraft ▸ ht.draft, ?_, hrooted t ht⟩
  rw [hdraft, ← hf r t.draft, ← ht.rest]

theorem newSymbol {part : String} (hpart : d.Vacant a part) :
    Decides (Rooted count) (Stage count d a r) (Registration.newSymbol [part])
      (¬ d.Buried (Name.bracketed part)) ⟨d.symbols.length + a.symbols.length⟩
      (Stage count d (a.addSymbol part false) r) :=
  call (Draft.enlarges_newSymbolOf hpart false) (.addSymbol ..)

theorem addWord {part : String} {accepted substituted : List String} {cost : Option Float}
    (hpart : d.Vacant a part) (hword : IsWord part accepted substituted cost) :
    Decides (Rooted count) (Stage count d a r) (Registration.addWord part accepted substituted cost)
      (¬ d.Buried (Name.bracketed part)) ⟨d.symbols.length + a.symbols.length⟩
      (Stage count d (a.addSymbol part true) r) :=
  call (Draft.enlarges_addWord hpart hword) (.addSymbol ..)

theorem newSemantic {definition : Semantic} (hname : Name.isPart definition.name = true)
    (hfree : ∀ k ∈ d.vocabulary.definitions ++ a.semantics, k.name ≠ definition.name)
    (hbounds : Vocabulary.boundsFlaw? definition = none)
    (hcost : Vocabulary.isCost definition.cost = true) :
    Decides (Rooted count) (Stage count d a r) (Registration.call (·.newSemantic definition)) True
      ⟨d.vocabulary.size + a.semantics.length⟩ (Stage count d (a.addSemantic definition) r) :=
  call (Draft.enlarges_newSemantic hname hfree hbounds hcost) (.addSemantic ..)

theorem addRule {p : Proposal} {part : SymbolId} (hX : d.Owned a X) (hp : p.Plain [part])
    (hsemantic : d.Attachable a p) :
    Decides (Rooted count) (Stage count d a r) (Registration.addRule X p) (d.Stands a part) ()
      (Stage count d a r) :=
  call (Draft.enlarges_addUnaryRule hX hp hsemantic) (.refl a)

theorem addBinaryRule {p : Proposal} {first second : SymbolId} (hX : d.Owned a X)
    (hp : p.Plain [first, second]) (hsemantic : d.Attachable a p) :
    Decides (Rooted count) (Stage count d a r) (Registration.addBinaryRule X p)
      (d.Stands a first ∧ d.Stands a second) () (Stage count d a r) :=
  call (Draft.enlarges_addBinaryRule hX hp hsemantic) (.refl a)

end Stage

end QueryGrammar
