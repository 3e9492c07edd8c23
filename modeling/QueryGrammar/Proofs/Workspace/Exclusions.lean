import QueryGrammar.Proofs.Draft.StopWords
import QueryGrammar.Proofs.Workspace.Pending
/-!
Which stop words a negation is given. Rules lead to everything that a derivation applies, so a
default stop word that is no token of a terminal they lead to is no token of anything that the
symbol beside the negation derives. What waits was settled before anything is given, and no symbol
waits twice, so each gets exactly its own words.
-/
namespace QueryGrammar

open Change StopWords

namespace Draft

variable {d : Draft} {X Y S : SymbolId} {word : String}

/-- A rule has a terminal with this token. -/
def HasToken (d : Draft) (X : SymbolId) (word : String) : Prop :=
  ∃ r ∈ d.rules X, ∃ term text, r.expansion = .terminal term text ∧ word ∈ Text.wordsOf term

/-- Rules lead from the symbol that a negation stands beside, if there is one, to a terminal with
this token. -/
def Conflicts (d : Draft) (conflicting : Option SymbolId) (word : String) : Prop :=
  ∃ S, conflicting = some S ∧ ∃ X, d.Reaches (fun _ => true) [S] X ∧ d.HasToken X word

/-- Rules lead wherever a derivation goes. -/
theorem reaches_of_occurs (h : d.productions.Occurs S X) : d.Reaches (fun _ => true) [S] X :=
  h.induction (.root (List.mem_singleton_self S)) fun _ _ hX hr _ _ hY => .step hX hr rfl hY

theorem conflicts_of_derives {tokens : List Token} {s : List NamedAttachment}
    (h : d.productions.Derives S tokens s) (hword : .word word ∈ tokens) :
    d.Conflicts (some S) word := by
  obtain ⟨X, r, happlies, htoken⟩ := h.exists_applies hword
  refine ⟨S, rfl, X, reaches_of_occurs ⟨r, happlies⟩, r, happlies.expands.1, ?_⟩
  -- of the rules that read tokens themselves, those of placeholders read no words
  cases hx : r.expansion with
  | terminal term text =>
    exact ⟨term, text, rfl, by simpa [productions, productionsBy, ownTokens, hx] using htoken⟩
  | _ => simp [productions, productionsBy, ownTokens, hx] at htoken

theorem hasToken_iff : d.HasToken X word ↔ word ∈ tokensOf d X := by
  simp only [tokensOf, List.mem_flatMap, HasToken]
  refine exists_congr fun r => and_congr_right fun _ => ?_
  cases r.expansion <;> simp

theorem conflicts_some_iff : d.Conflicts (some S) word ↔ word ∈ conflictingTokens d S := by
  simp only [conflictingTokens, List.mem_flatMap, mem_reachedFrom_iff, hasToken_iff, Conflicts,
    Option.some.injEq, exists_eq_left']

open Classical in
theorem allowed_eq (d : Draft) (conflicting : Option SymbolId) :
    allowed d conflicting = defaults.filter fun word => ¬ d.Conflicts conflicting word := by
  cases conflicting with
  | none => exact (List.filter_eq_self.mpr fun word _ => by simp [Conflicts]).symm
  | some S =>
    refine List.filter_congr fun word _ => ?_
    simp [conflicts_some_iff]

/-! ### Filling -/

open Classical in
/-- `e` is `d` with all stop words filled: what waited has got, as far as they are new to it, the
default stop words that do not conflict in `d`, in their order. -/
structure FilledExactly (d e : Draft) : Prop where
  noneWaiting : e.pendingStopWords = []
  waiting : ∀ p ∈ d.pendingStopWords, e.rules p.1 = d.rules p.1 ++
    (defaults.filter fun word => ¬ d.Conflicts p.2 word ∧ stopRule word ∉ d.rules p.1).map stopRule
  others : ∀ X, X ∉ d.pendingStopWords.map (·.1) → e.rules X = d.rules X
  names : e.symbols.map (·.name) = d.symbols.map (·.name)
  rest : e = { d with symbols := e.symbols, pendingStopWords := [] }

theorem nodup_defaults : defaults.Nodup := by decide +kernel

open Classical in
/-- Where no symbol waits twice and all that wait are live, nothing is refused. -/
theorem WaitsOnce.filledExactly (h : d.WaitsOnce)
    (hlive : ∀ p ∈ d.pendingStopWords, p.1 ∈ d.liveSymbols) :
    ∃ e, fill.perform d = (.ok d.pendingStopWords.length, e) ∧ d.FilledExactly e := by
  have hfirst : (settled d).map (·.1) = d.pendingStopWords.map (·.1) := by simp [settled]
  have hsettled : ∀ p ∈ settled d, p.1 ∈ d.liveSymbols := by
    intro p hp
    obtain ⟨q, hq, rfl⟩ := List.mem_map.mp hp
    exact hlive q hq
  have hwords : ∀ p ∈ settled d, p.2.Nodup := by
    intro p hp
    obtain ⟨q, -, rfl⟩ := List.mem_map.mp hp
    change (allowed d q.2).Nodup
    rw [allowed_eq]
    exact nodup_defaults.filter _
  have hfillable : Fillable (settled d) d := fun p hp _ => hsettled p hp
  refine ⟨_, perform_fill_eq_ok_iff.mpr ⟨rfl, hfillable, rfl⟩, ?_⟩
  have hadds := addsRules_giveAll (settled d) { d with pendingStopWords := [] }
  constructor
  · rw [hadds.rest]
  · intro p hp
    refine (rules_giveAll (d := { d with pendingStopWords := [] }) hsettled (hfirst ▸ h.once) hwords
      _ (List.mem_map_of_mem hp)).trans ?_
    have hcondition : (fun word => decide (stopRule word ∉ d.rules p.1) &&
        decide ¬ d.Conflicts p.2 word) =
        fun word => decide (¬ d.Conflicts p.2 word ∧ stopRule word ∉ d.rules p.1) := by
      funext word
      rw [Bool.decide_and, Bool.and_comm]
    rw [allowed_eq, List.filter_filter]
    exact congrArg (fun q => d.rules p.1 ++ (defaults.filter q).map stopRule) hcondition
  · exact fun X hX => rules_giveAll_of_not_mem (hfirst ▸ hX) _
  · exact hadds.names
  · rw [hadds.rest]

open Classical in
theorem FilledExactly.not_mem_of_derives {e : Draft} (h : d.FilledExactly e)
    (hwaits : (X, some S) ∈ d.pendingStopWords) (hgiven : stopRule word ∈ e.rules X)
    (hnew : stopRule word ∉ d.rules X) {tokens : List Token} {s : List NamedAttachment}
    (hderives : d.productions.Derives S tokens s) : .word word ∉ tokens := by
  intro hword
  rw [h.waiting _ hwaits, List.mem_append] at hgiven
  obtain ⟨w, hw, heq⟩ := List.mem_map.mp (hgiven.resolve_left hnew)
  rw [stopRule_inj heq, List.mem_filter, decide_eq_true_eq] at hw
  exact hw.2.1 (conflicts_of_derives hderives hword)

end Draft

/-- Stop words can always be filled. Each waiting symbol is given, in order and as far as it lacks
them, the default stop words that are no tokens of terminals that rules lead to from the symbol it
must avoid, and no other symbol is given any; so no word is given that this symbol can derive. -/
theorem Registered.fill_exactly {ws : Workspace} (h : Registered ws) :
    ∃ e, fill.perform ws.draft = (.ok ws.draft.pendingStopWords.length, e) ∧
      ws.draft.FilledExactly e ∧
      ∀ X S, (X, some S) ∈ ws.draft.pendingStopWords → ∀ word,
        stopRule word ∈ e.rules X → stopRule word ∉ ws.draft.rules X → ∀ tokens s,
          ws.draft.productions.Derives S tokens s → .word word ∉ tokens := by
  have hlive : ∀ p ∈ ws.draft.pendingStopWords, p.1 ∈ ws.draft.liveSymbols :=
    fun p hp => h.sound.mem_liveSymbols (h.waitsOnce.registered p hp)
  obtain ⟨e, hfill, hexactly⟩ := h.waitsOnce.filledExactly hlive
  exact ⟨e, hfill, hexactly, fun X S hwaits word hgiven hnew tokens s hderives =>
    hexactly.not_mem_of_derives hwaits hgiven hnew hderives⟩

/-- Two verbs, each of which may be the negation beside the other. -/
def mutualNegations : Registration Unit := do
  let does ← Registration.newSymbol ["does"]
  let has ← Registration.newSymbol ["has"]
  Registration.addRule does (.terminal "does" .verbatim)
  Registration.addRule has (.terminal "has" .verbatim)
  let besideDoes ← Workspace.negation (some does)
  let besideHas ← Workspace.negation (some has)
  Registration.addRule does (.unary besideHas.symbol)
  Registration.addRule has (.unary besideDoes.symbol)

theorem registered_mutualNegations : Registered (mutualNegations.perform {}).2 := by
  have hcall : ∀ {α : Type} {x : Registration α}, RegistrationCall x → Keeps Registered x :=
    fun hx _ hws => hws.call hx
  have hcalls : Keeps Registered mutualNegations :=
    .bind (hcall (.newSymbol _)) fun _ => .bind (hcall (.newSymbol _)) fun _ =>
      .bind (hcall (.addRule _ _)) fun _ => .bind (hcall (.addRule _ _)) fun _ =>
        .bind (hcall (.negation _)) fun _ => .bind (hcall (.negation _)) fun _ =>
          .bind (hcall (.addRule _ _)) fun _ => hcall (.addRule _ _)
  exact hcalls {} .init

theorem fill_exactly_mutualNegations : ∃ ws e, Registered ws ∧ fill.perform ws.draft = (.ok 2, e) ∧
    ws.draft.FilledExactly e ∧ tokensOf e ⟨5⟩ = defaults.filter (· ≠ "does") ∧
    tokensOf e ⟨7⟩ = defaults.filter (· ≠ "has") := by
  obtain ⟨e, hfill, hexactly, -⟩ := registered_mutualNegations.fill_exactly
  have hcount : (mutualNegations.perform {}).2.draft.pendingStopWords.length = 2 := by
    decide +kernel
  have he : e = (fill.perform (mutualNegations.perform {}).2.draft).2 :=
    (congrArg Prod.snd hfill).symm
  refine ⟨_, e, registered_mutualNegations, hcount ▸ hfill, hexactly, ?_, ?_⟩
  · rw [he]
    decide +kernel
  · rw [he]
    decide +kernel

end QueryGrammar
