import QueryGrammar.Proofs.Finish.Early
import QueryGrammar.Proofs.Finish.Refused
import QueryGrammar.Proofs.Finish.Restored
import QueryGrammar.Proofs.Workspace.Pending
/-!
Removing the unused before a grammar is finished. Finishing removes it again, but only after it has
filled the stop words, and these are neither rules yet nor counted as uses. So an early removal takes
the symbols that wait for stop words, and with them the negations that read them; and it takes the
symbols that stop words have to avoid. It does no harm exactly if nothing is taken that the stop words
need.
-/
namespace QueryGrammar

open Change StopWords

namespace Draft

variable {d e : Draft} {o : Options} {c : Compilation} {X : SymbolId} {word : String}

/-! ### Stop words in documents -/

theorem wordsOf_stopWord (h : word ∈ defaults) : Text.wordsOf word = [word] := by
  have hall : ∀ word ∈ defaults, Text.wordsOf word = [word] := by decide +kernel
  exact hall word h

theorem namedRule_eq_stopRow_iff {r : Rule} : d.namedRule r = stopRow word ↔ r = stopRule word := by
  constructor
  · intro h
    obtain ⟨expansion, semantic, features, insertionCost, edit⟩ := r
    cases expansion with
    | terminal term text =>
      cases text <;> simp_all [namedRule, namedExpansion, stopRow, stopRule, writtenText]
    | _ => simp_all [namedRule, namedExpansion, stopRow]
  · rintro rfl
    rfl

/-- What filling stop words leaves as it was. -/
theorem addsRules_filled {count : Nat} (h : fill.perform d = (.ok count, e)) :
    AddsRules (fun _ _ => True) { d with pendingStopWords := [] } d.filled := by
  rw [(filled_eq h).2]
  exact addsRules_giveAll _ _

theorem occurs_filled {count : Nat} (h : fill.perform d = (.ok count, e)) (hX : d.Occurs X) :
    d.filled.Occurs X :=
  (addsRules_filled h).extends.carries.occurs hX

/-- A symbol in use has a stop word exactly if the finished grammar has the row for it. -/
theorem hasRow_stopRow_iff (hd : d.Consistent) (hfinish : (finish o).perform d = (.ok c, e))
    (hsearchable : e.Searchable) (hshaped : e.Shaped) (hword : word ∈ defaults)
    (hX : d.filled.Occurs X) :
    c.grammar.HasRow (d.symbolName X) (stopRow word) ↔ stopRule word ∈ d.filled.rules X := by
  obtain ⟨count, hfill⟩ := fill_of_finish hfinish
  obtain ⟨hstart, unused, hcomplete⟩ := exists_of_finish hfinish
  have htok := (hd.filled.trimmed hstart).tokenized
  have hadds := d.filled.trimmed.tokenize.2.addsRules_withEdits o.includeTrees
  have he : e = (d.filled.trimmed.tokenize.2.withEdits o.includeTrees).2 := by
    rw [← complete_draft d.filled.trimmed o unused, hcomplete]
  have hlive := (mem_liveSymbols_trimmed_iff hstart).mpr hX
  have hname : e.symbolName X = d.symbolName X := by
    rw [he, hadds.symbolName_eq, htok.symbolName_eq hlive, trimmed_symbolName,
      (addsRules_filled hfill).symbolName_eq]
    rfl
  rw [grammar_of_finish hfinish, ← hname]
  constructor
  · intro hrow
    obtain ⟨Y, hY, r, hr, hnamed⟩ := exists_rule_of_hasRow hsearchable.consistent.names hrow
    obtain rfl := namedRule_eq_stopRow_iff.mp hnamed
    have hliveX : X ∈ e.liveSymbols := he ▸ hadds.mem_liveSymbols_iff.mpr (htok.live hlive)
    obtain rfl := symbolName_inj hsearchable.consistent.names (live_of_mem_rules hr) hliveX hY
    rw [he] at hr
    rcases rule_withEdits_cases o.includeTrees hr with hr | ⟨_, -, -, hmem⟩
    · obtain ⟨q, hq, hsplits⟩ := (exists_mem_of_forall₂ (htok.rules hlive)).2 _ hr
      generalize heq : stopRule word = r at hsplits
      cases hsplits with
      | same => exact heq ▸ ((mem_rules_trimmed_iff hstart).mp hq).expands.1
      | nothing => simp [stopRule] at heq
      | row => simp [stopRule] at heq
    · exact absurd (by simp [stopRule, Expansion.parts]) (parted_of_mem_editsOf hmem)
  · intro hr
    obtain ⟨q, hq, hsplits⟩ := htok.exists_split
      ((mem_rules_trimmed_iff hstart).mpr (applies_stopRule hX hr))
    obtain rfl := hsplits.eq_of_single fun term text hx => by
      cases hx
      exact wordsOf_stopWord hword
    obtain ⟨added, hrules, -⟩ := hadds.rules X
    have hmem : stopRule word ∈ e.rules X := he ▸ hrules ▸ List.mem_append_left _ hq
    exact hsearchable.hasRow_namedRule hshaped hmem rfl

/-! ### Finishing what has been trimmed -/

section Trimmed

variable (hd : d.Consistent) (hstart : d.Expands start)
include hd hstart

/-- Filling the stop words of a trimmed draft is all that can be refused of finishing it. -/
theorem finish_trimmed {count : Nat} {f : Draft}
    (hfill : fill.perform d.trimmed = (.ok count, f)) (o : Options) :
    (finish o).perform d.trimmed =
      (.ok (d.trimmed.filled.complete o []).1, (d.trimmed.filled.complete o []).2) := by
  have hconsistent := hd.trimmed hstart
  obtain ⟨htrimmed, hexpands⟩ := (used_trimmed hstart).filled_trimmed hconsistent hfill
  have hused : d.trimmed.filled.Used := htrimmed ▸ used_trimmed hexpands
  have hremove := (hused.inUse hconsistent.filled).removeUnused_eq o.unusedPolicy
  have hf : f = d.trimmed.filled := by rw [filled, hfill]
  rw [finish, perform_bind, hfill]
  dsimp only
  rw [perform_bind, perform_call, hf, hremove]
  dsimp only
  rw [perform_call]
  simp only [pure, Except.pure]

theorem exists_finish_trimmed_iff (o : Options) :
    (∃ c f, (finish o).perform d.trimmed = (.ok c, f)) ↔
      ∀ p ∈ d.pendingStopWords, allowed d.trimmed p.2 ≠ [] → p.1 ∈ d.trimmed.liveSymbols := by
  have hsettled : Fillable (settled d.trimmed) d.trimmed ↔
      ∀ p ∈ d.pendingStopWords, allowed d.trimmed p.2 ≠ [] → p.1 ∈ d.trimmed.liveSymbols := by
    simp only [Fillable, settled, trimmed_pendingStopWords, List.forall_mem_map]
  rw [← hsettled]
  constructor
  · rintro ⟨c, f, hfinish⟩
    obtain ⟨count, hfill⟩ := fill_of_finish hfinish
    exact (filled_eq hfill).1
  · intro hfillable
    exact ⟨_, _, finish_trimmed hd hstart (perform_fill_eq_ok_iff.mpr ⟨rfl, hfillable, rfl⟩) o⟩

end Trimmed

end Draft

open Draft

section Built

variable {ws : Workspace} (h : Built ws) {o : Options} {c : Compilation} {e f : Draft}
include h

theorem Built.removed {policy : UnusedPolicy} {unused : List String}
    (hremove : ws.draft.removeUnused policy = .ok (unused, e)) : Built { ws with draft := e } := by
  have hbuilt := h.call (.removeUnused policy)
  rw [Registration.call, perform_within, perform_call, hremove] at hbuilt
  exact hbuilt

theorem Built.finished (hfinish : (finish o).perform ws.draft = (.ok c, f)) :
    Built { ws with draft := f } := by
  have hbuilt := h.call (.finish o)
  rw [Registration.finish, perform_within, hfinish] at hbuilt
  exact hbuilt

/-- Of a symbol in use, the document tells whether it reads a stop word. -/
theorem Built.hasRow_stopRow_iff (hfinish : (finish o).perform ws.draft = (.ok c, f)) {X : SymbolId}
    (hX : ws.draft.filled.Occurs X) {word : String} (hword : word ∈ defaults) :
    c.grammar.HasRow (ws.draft.symbolName X) (stopRow word) ↔
      stopRule word ∈ ws.draft.filled.rules X :=
  Draft.hasRow_stopRow_iff h.consistent hfinish (h.finished hfinish).searchable
    (h.finished hfinish).shaped hword hX

end Built

/-- Whatever the options, if a registered grammar can be finished and the unused can be removed from it,
then what is left can be finished exactly if the waiting symbols that still get stop words are left; and
the grammar is the same exactly if the words that they get are words that they have anyway. -/
theorem Registered.finish_trimmed_iff {ws : Workspace} (h : Registered ws) {o : Options}
    {unused : List String} {e f : Draft} {c : Compilation}
    (hremove : ws.draft.removeUnused .warn = .ok (unused, e))
    (hfinish : (finish o).perform ws.draft = (.ok c, f)) :
    ((∃ c' f', (finish o).perform e = (.ok c', f')) ↔
      ∀ p ∈ ws.draft.pendingStopWords, allowed e p.2 ≠ [] → p.1 ∈ e.liveSymbols) ∧
    ((∃ c' f', (finish o).perform e = (.ok c', f') ∧ c'.grammar = c.grammar) ↔
      ∀ p ∈ ws.draft.pendingStopWords, ∀ word ∈ allowed e p.2,
        p.1 ∈ e.liveSymbols ∧ stopRule word ∈ ws.draft.filled.rules p.1) := by
  have htrimmed := h.built.removed hremove
  obtain ⟨hstart, rfl⟩ := expands_of_removeUnused hremove
  have hd := h.built.consistent
  obtain ⟨count, hfill⟩ := fill_of_finish hfinish
  have hleft := exists_finish_trimmed_iff hd hstart o
  refine ⟨hleft, ?_, fun halike => ?_⟩
  · rintro ⟨c', f', hfinish', hsame⟩ p hp word hword
    obtain ⟨count', hfill'⟩ := fill_of_finish hfinish'
    have hlive := hleft.mp ⟨c', f', hfinish'⟩ p hp (List.ne_nil_of_mem hword)
    have hoccurs := occurs_filled hfill ((mem_liveSymbols_trimmed_iff hstart).mp hlive)
    have hoccurs' := occurs_filled hfill' ((used_trimmed hstart).occurs _ hlive)
    have hpending := trimmed_pendingStopWords ws.draft
    have hgiven := (mem_rules_filled_iff hfill' (hpending ▸ h.waitsOnce.once) (hpending ▸ hp)).mpr
      (Or.inr hword)
    have hdefault := mem_defaults_of_mem_allowed hword
    refine ⟨hlive, (h.built.hasRow_stopRow_iff hfinish hoccurs hdefault).mp ?_⟩
    have hrow := (htrimmed.hasRow_stopRow_iff hfinish' hoccurs' hdefault).mpr hgiven
    rw [← hsame, ← trimmed_symbolName]
    exact hrow
  · have hlive : ∀ p ∈ ws.draft.pendingStopWords, allowed ws.draft.trimmed p.2 ≠ [] →
        p.1 ∈ ws.draft.trimmed.liveSymbols := by
      intro p hp hne
      obtain ⟨word, hword⟩ := List.exists_mem_of_ne_nil _ hne
      exact (halike p hp word hword).1
    obtain ⟨_, _, hfinish'⟩ := hleft.mpr hlive
    obtain ⟨count', hfill'⟩ := fill_of_finish hfinish'
    obtain ⟨-, unused, hcomplete⟩ := exists_of_finish hfinish
    refine ⟨_, _, finish_trimmed hd hstart hfill' o, ?_⟩
    have hfilled := FillsAlike.filled_trimmed halike h.waitsOnce.once hstart hfill hfill'
    calc (ws.draft.trimmed.filled.complete o []).1.grammar
        = (ws.draft.filled.trimmed.complete o unused).1.grammar := by
          rw [hfilled, complete_grammar, complete_grammar, complete_draft, complete_draft]
      _ = c.grammar := by rw [hcomplete]

/-- The start symbol reads a negation. The symbol of its stop words, which wait, has been given these
words already. -/
def negated (words : List String) : Workspace :=
  let declared := ((Workspace.negation none).perform {}).2
  let read := ((Registration.addRule Draft.start (.unary ⟨2⟩)).perform declared).2
  words.foldl (fun ws word => ((Registration.addRule ⟨3⟩ (.terminal word .silent)).perform ws).2) read

theorem registered_negated (words : List String) : Registered (negated words) := by
  have hwords : ∀ ws, Registered ws → Registered (words.foldl (fun ws word =>
      ((Registration.addRule ⟨3⟩ (.terminal word .silent)).perform ws).2) ws) := by
    induction words with
    | nil => exact fun _ h => h
    | cons word words ih => exact fun ws h => ih _ (h.call (.addRule _ _))
  exact hwords _ ((Registered.init.call (.negation none)).call (.addRule _ _))

/-- A negation that has all stop words beforehand is finished to the same grammar. -/
theorem finish_trimmed_negated : ∃ (unused : List String) (e f f' : Draft) (c c' : Compilation),
    (negated defaults).draft.removeUnused .warn = .ok (unused, e) ∧
      (finish { quiet := true }).perform (negated defaults).draft = (.ok c, f) ∧
      (finish { quiet := true }).perform e = (.ok c', f') ∧ c'.grammar = c.grammar := by
  obtain ⟨⟨unused, e⟩, hremove⟩ := exists_of_isOk
    (show ((negated defaults).draft.removeUnused .warn).isOk = true by decide +kernel)
  obtain ⟨c, f, hfinish⟩ := exists_perform_of_isOk (show
    ((finish { quiet := true }).perform (negated defaults).draft).1.isOk = true by decide +kernel)
  rw [(expands_of_removeUnused hremove).2] at hremove
  have hall : ∀ p ∈ (negated defaults).draft.pendingStopWords,
      ∀ word ∈ allowed (negated defaults).draft.trimmed p.2,
        p.1 ∈ (negated defaults).draft.trimmed.liveSymbols ∧
          (negated defaults).draft.filled.lacks p.1 (stopRule word) = false := by decide +kernel
  have halike := ((registered_negated defaults).finish_trimmed_iff hremove hfinish).2.mpr
    fun p hp word hword => (hall p hp word hword).imp_right lacks_stopRule_iff.mp
  obtain ⟨c', f', hfinish', hsame⟩ := halike
  exact ⟨unused, _, f, f', c, c', hremove, hfinish, hfinish', hsame⟩

/-- A negation that waits for its stop words is finished, but not once the unused has been removed: the
symbol of the stop words is gone. -/
theorem exists_refused_finish_trimmed : ∃ (ws : Workspace) (unused : List String) (e f : Draft)
    (c : Compilation) (err : BuildError), Registered ws ∧
      ws.draft.removeUnused .warn = .ok (unused, e) ∧
      (finish { quiet := true }).perform ws.draft = (.ok c, f) ∧
      (finish { quiet := true }).perform e = (.error err, e.filled) := by
  obtain ⟨⟨unused, e⟩, hremove⟩ := exists_of_isOk
    (show ((negated []).draft.removeUnused .warn).isOk = true by decide +kernel)
  obtain ⟨c, f, hfinish⟩ := exists_perform_of_isOk (show
    ((finish { quiet := true }).perform (negated []).draft).1.isOk = true by decide +kernel)
  rw [(expands_of_removeUnused hremove).2] at hremove
  obtain ⟨err, hrefused⟩ := exists_of_not_isOk (show
    ((finish { quiet := true }).perform (negated []).draft.trimmed).1.isOk = false by decide +kernel)
  rw [eq_filled_of_refused_finish hrefused] at hrefused
  exact ⟨negated [], unused, _, f, c, err, registered_negated [], hremove, hfinish, hrefused⟩

end QueryGrammar
