import QueryGrammar.Finish.Report
import QueryGrammar.Proofs.Document.Derivation
import QueryGrammar.Proofs.Finish.Trimmed
import QueryGrammar.Proofs.Workspace.Registered
/-!
Finishing keeps the meaning of a grammar. The stages are taken one by one: the unused is in no
derivation, split terminals read the same words, edits leave the other rules alone, and a document
writes every rule as a row.
-/
namespace QueryGrammar

namespace Draft

variable {d : Draft}

/-! ### Stages -/

/-- The removal of the unused keeps every derivation from the start symbol. -/
theorem derives_trimmed_iff (hstart : d.Expands start) {w : List Token}
    {s : List NamedAttachment} :
    d.trimmed.productions.Derives start w s ↔ d.productions.Derives start w s := by
  refine Productions.derives_iff_of_applies (fun X r => mem_rules_trimmed_iff hstart) fun r => ?_
  have hown : d.trimmed.ownTokens Text.wordsOf r.expansion =
      d.ownTokens Text.wordsOf r.expansion := by
    cases r.expansion <;> simp [ownTokens]
  exact ⟨by simp [productions, productionsBy], hown, by simp [productions, productionsBy]⟩

/-- The document that a trimmed draft is completed to derives what the draft does. -/
theorem Trimmed.derives_complete_iff (hd : d.Trimmed) (o : Options) (unused : List String)
    {w : List Token} {s : List NamedAttachment} :
    (d.complete o unused).1.grammar.productions.Derives
        (d.complete o unused).1.grammar.startSymbol w s ↔
      d.productions.Derives start w s := by
  -- no symbol is made yet, so nothing is known to read tokens
  have hnone : ∀ (id : SymbolId) (tokens : List String), ¬ (fun _ _ => False) id tokens :=
    fun _ _ h => h
  have hlive : KnowsLive (fun _ _ => False) d := fun _ _ h => h.elim
  have htok : Tokenized (fun _ _ => False) d d.liveSymbols d.tokenize.2 :=
    tokenized_tokenize (knowsMade_of_bracketed hd.bracketed)
      fun X r hr => (hd.wellFormed.terms X r hr).splittable
  have hunedited : ∀ X, ∀ r ∈ d.tokenize.2.rules X, r.edit = none := fun X r hr =>
    htok.unedited hlive hd.unedited hr
  have hadds := d.tokenize.2.addsRules_withEdits o.includeTrees
  have hnames := htok.names hd.names
  rw [← hadds.names] at hnames
  have hstart := hadds.mem_liveSymbols_iff.mpr (htok.live hd.startLive)
  have hparts : ∀ X, ∀ r ∈ (d.tokenize.2.withEdits o.includeTrees).2.rules X, r.edit = none →
      ∀ Y ∈ r.expansion.parts, Y ∈ (d.tokenize.2.withEdits o.includeTrees).2.liveSymbols := by
    intro X r hr hedit Y hY
    have hold := (mem_rules_withEdits_iff hunedited).mp ⟨hr, hedit⟩
    exact hadds.mem_liveSymbols_iff.mpr (htok.parts_live hlive hd.wellFormed.parts hold hY)
  calc (d.complete o unused).1.grammar.productions.Derives
        (d.complete o unused).1.grammar.startSymbol w s
      ↔ (d.tokenize.2.withEdits o.includeTrees).2.uneditedProductions.Derives start w s :=
        derives_ofDraft_iff hnames hparts hstart
    _ ↔ d.tokenize.2.tokenProductions.Derives start w s := by
        rw [uneditedProductions_withEdits hunedited]
    _ ↔ d.productions.Derives start w s := htok.derives_iff hnone hd.wellFormed hd.startLive

/-! ### The whole of it -/

/-- What a finished draft has been through: its stop words were filled, and what is left of it
without the unused was completed. -/
theorem exists_of_finish {d e : Draft} {o : Options} {c : Compilation}
    (h : (finish o).perform d = (.ok c, e)) :
    d.filled.Expands start ∧ ∃ unused, d.filled.trimmed.complete o unused = (c, e) := by
  obtain ⟨count, f, hfill, h⟩ := Change.perform_bind_eq_ok_iff.mp h
  obtain ⟨unused, g, htrim, h⟩ := Change.perform_bind_eq_ok_iff.mp h
  have hf : f = d.filled := (congrArg Prod.snd hfill).symm
  rw [Change.perform_call_eq_ok_iff, hf, removeUnused_eq] at htrim
  rw [Change.perform_call_eq_ok_iff] at h
  split at htrim
  · simp at htrim
  · next hproductive =>
    split at htrim
    · simp at htrim
    · cases htrim
      exact ⟨mem_productive_iff.mp (not_not.mp hproductive), _, Except.ok.inj h⟩

end Draft

/-- Finishing a registered grammar gives a document with the same derivations: the start symbol
derives the same tokens with the same semantics. -/
theorem Registered.finish_derives_iff {ws : Workspace} (h : Registered ws) {o : Options}
    {c : Compilation} {e : Draft} (hfinish : (Draft.finish o).perform ws.draft = (.ok c, e))
    (w : List Token) (s : List NamedAttachment) :
    ws.draft.filled.productions.Derives Draft.start w s ↔
      c.grammar.productions.Derives c.grammar.startSymbol w s := by
  obtain ⟨hexpands, unused, hcomplete⟩ := Draft.exists_of_finish hfinish
  have htrimmed := h.sound.filled.trimmed hexpands
  have hmeaning := htrimmed.derives_complete_iff o unused (w := w) (s := s)
  rw [hcomplete] at hmeaning
  rw [hmeaning, Draft.derives_trimmed_iff hexpands]

/-- A start symbol of one term is finished, and its document derives the words of the term. -/
theorem Registered.finish_derives_words :
    ∃ (ws : Workspace) (c : Compilation) (e : Draft), Registered ws ∧
      (Draft.finish {}).perform ws.draft = (.ok c, e) ∧
      c.grammar.productions.Derives c.grammar.startSymbol [.word "hello", .word "there"] [] := by
  let call := Registration.addRule Draft.start (.terminal "hello there" .verbatim)
  have hws : Registered (call.perform {}).2 := .call .init (.addRule _ _)
  have hok : ((Draft.finish {}).perform (call.perform {}).2.draft).1.isOk = true := by
    decide +kernel
  have hrule : { expansion := .terminal "hello there" .verbatim } ∈
      (call.perform {}).2.draft.filled.rules Draft.start :=
    List.mem_singleton_self _
  cases hfinish : (Draft.finish {}).perform (call.perform {}).2.draft with
  | mk outcome e =>
    cases outcome with
    | error err => simp [hfinish, Except.isOk, Except.toBool] at hok
    | ok c =>
      refine ⟨_, c, e, hws, hfinish, (hws.finish_derives_iff hfinish _ _).mp ?_⟩
      have hwords : Text.wordsOf "hello there" = ["hello", "there"] := by decide +kernel
      refine Productions.derives_iff.mpr ⟨_, [], hrule, .nil, ?_, rfl⟩
      simp [Draft.productions, Draft.productionsBy, Draft.ownTokens, hwords]

end QueryGrammar
