import QueryGrammar.Proofs.Finish.Added
import QueryGrammar.Proofs.Workspace.Integrity
/-!
Finishing a grammar twice. The draft that finishing leaves behind is finished already: no stop words
wait, everything is used, terminals are single tokens and every edit is there. Finishing it again
gives the same document and changes nothing.
-/
namespace QueryGrammar

open Change

namespace Draft

variable {d e : Draft}

/-! ### Stop words -/

theorem pendingStopWords_appendRule (d : Draft) (id : SymbolId) (r : Rule) :
    (d.appendRule id r).pendingStopWords = d.pendingStopWords := by
  unfold appendRule
  split <;> rfl

/-- Once stop words are filled none wait. -/
theorem pendingStopWords_filled (d : Draft) : d.filled.pendingStopWords = [] := by
  have hone : ∀ (stopWord : SymbolId) (words : List String),
      Keeps (fun f : Draft => f.pendingStopWords = []) (StopWords.fillOne stopWord words) := by
    intro stopWord words
    apply Keeps.forM
    intro word _
    apply Keeps.call
    intro f _ g hf h
    obtain ⟨_, hadd, heq⟩ := Outcome.ok_of_bind h
    cases heq
    obtain ⟨r, -, hr⟩ := Outcome.ok_of_bind hadd
    cases hr
    rw [pendingStopWords_appendRule, hf]
  have hall : ∀ settled : List (SymbolId × List String),
      Keeps (fun f : Draft => f.pendingStopWords = []) (do
        settled.forM fun x => StopWords.fillOne x.1 x.2
        return settled.length : Change Draft Nat) := by
    intro settled
    apply Keeps.bind
    · exact Keeps.forM fun x _ => hone x.1 x.2
    · exact fun _ => Keeps.pure _
  rw [filled, StopWords.fill, perform_bind, perform_get]
  dsimp only
  rw [perform_bind, perform_set]
  exact hall _ _ rfl

theorem fill_of_none (h : d.pendingStopWords = []) : StopWords.fill.perform d = (.ok 0, d) := by
  have hsame : { d with pendingStopWords := [] } = d := by rw [← h]
  rw [StopWords.fill, perform_bind, perform_get]
  dsimp only
  rw [perform_bind, perform_set, h]
  dsimp only
  rw [hsame]
  rfl

/-! ### Drafts that are finished -/

/-- A draft in which finishing finds nothing to do. -/
structure Finished (d : Draft) (includeTrees : Bool) : Prop where
  filled : d.pendingStopWords = []
  consistent : d.Consistent
  used : d.Used
  single : ∀ X, ∀ r ∈ d.rules X, ∀ term text, r.expansion = .terminal term text →
    Text.wordsOf term = [term]
  edits : d.HasEdits d.candidates includeTrees

/-- The compilation that writes a draft, with what was done to it. -/
def compiled (d : Draft) (o : Options) (unused : List String) (normalizedTerminals : Nat)
    (edits : EditCounts) : Compilation where
  grammar := Document.ofDraft d
  report :=
    { symbols := (Document.ofDraft d).ruleSets.size
      rules := (Document.ofDraft d).ruleCount
      semantics := (Document.ofDraft d).semantics.size
      entityCategories := (Document.ofDraft d).entityCategories.size
      unused := unused
      normalizedTerminals := normalizedTerminals
      edits := edits
      ambiguities := if o.checkAmbiguity then d.ambiguities else []
      digest := (Document.ofDraft d).digest }

theorem complete_compiled (d : Draft) (o : Options) (unused : List String) :
    (d.complete o unused).1 = (d.complete o unused).2.compiled o unused d.tokenize.1
      (d.tokenize.2.withEdits o.includeTrees).1 := rfl

theorem Finished.complete_eq {o : Options} (h : d.Finished o.includeTrees) (unused : List String) :
    d.complete o unused =
      (d.compiled o unused 0 { insertable := d.candidates.length }, d) := by
  have htokenize := tokenize_of_single h.single
  have hedits := withEdits_of_has h.edits
  simp only [complete, htokenize, hedits, compiled]

theorem Finished.finish_eq {o : Options} (h : d.Finished o.includeTrees) :
    (finish o).perform d =
      (.ok (d.compiled o [] 0 { insertable := d.candidates.length }), d) := by
  have hremove : d.removeUnused o.unusedPolicy = .ok ([], d) :=
    (h.used.inUse h.consistent).removeUnused_eq o.unusedPolicy
  rw [finish, perform_bind, fill_of_none h.filled]
  dsimp only
  rw [perform_bind, perform_call, hremove]
  dsimp only
  rw [perform_call, h.complete_eq []]
  rfl

/-- What is inserted costs no less than nothing, and the cost of an exchange was checked. -/
theorem nonnegative_of_mem_editsOf (hd : d.Searchable) (hshaped : d.Shaped) {includeTrees : Bool}
    {X : SymbolId} {parent r : Rule} (hparent : parent ∈ d.rules X)
    (hr : r ∈ editsOf d.candidates includeTrees X parent) : ∀ x ∈ r.costs, Cost.Nonnegative x := by
  obtain ⟨first, second, cost, excluded, hx, ⟨kept, -, omitted, position, c, hc, rfl⟩ |
    ⟨price, rfl, rfl⟩⟩ := mem_editsOf_cases hr
  · intro x hmem
    obtain rfl : x = c.cost := by
      simpa [Rule.costs, insertionRule, Expansion.costs, Edit.cost] using hmem
    exact hd.stored_candidates.nonnegative hd hc
  · intro x hmem
    obtain rfl : x = price := by simpa [Rule.costs, Expansion.costs, Edit.cost] using hmem
    have hcost := (hshaped.rules X parent hparent).transposition first second x excluded hx
    exact Cost.nonnegative_of_isCost hcost

/-- Each edit compares equal to itself. -/
theorem beq_self_of_mem_editsOf (hd : d.Searchable) (hshaped : d.Shaped) {includeTrees : Bool}
    {X : SymbolId} {parent r : Rule} (hparent : parent ∈ d.rules X)
    (hr : r ∈ editsOf d.candidates includeTrees X parent) : (r == r) = true :=
  Rule.beq_self fun x hx => (nonnegative_of_mem_editsOf hd hshaped hparent hr x hx).beq_self

theorem candidates_withEdits (d : Draft) (includeTrees : Bool) :
    (d.withEdits includeTrees).2.candidates = d.candidates := by
  apply AddsRules.candidates_eq
  apply (d.addsRules_withEdits includeTrees).mono
  rintro X r ⟨hedit, parent, hparent, -⟩
  exact ⟨hedit, List.ne_nil_of_mem hparent⟩

theorem shaped_filled (hd : d.Shaped) : d.filled.Shaped :=
  StopWords.keeps_fill shaped_callInvariant.toStepInvariant d hd

/-- What a trimmed draft without pending stop words is completed to is finished. -/
theorem finished_complete (hd : d.Searchable) (hshaped : d.Shaped) (hstart : d.Expands start)
    (hpending : d.pendingStopWords = []) (o : Options) (unused : List String) :
    (d.trimmed.complete o unused).2.Finished o.includeTrees := by
  have hprepared := hd.tokenize_trimmed hstart
  have hpreparedShaped := (hshaped.trimmed hstart).tokenize
  have htok := (hd.consistent.trimmed hstart).tokenized
  obtain ⟨hconsistent, hused⟩ := hd.consistent.complete_trimmed hstart o unused
  have hadds := d.trimmed.tokenize.2.addsRules_withEdits o.includeTrees
  constructor
  · rw [complete_draft, hadds.rest, htok.rest]
    exact d.trimmed_pendingStopWords.trans hpending
  · exact hconsistent
  · exact hused
  · intro X r hr term text hx
    rcases rule_withEdits_cases o.includeTrees hr with hr | ⟨parent, -, -, hmem⟩
    · exact htok.single hr hx
    · exact absurd (by simp [hx, Expansion.parts]) (parted_of_mem_editsOf hmem)
  · rw [complete_draft, candidates_withEdits]
    apply hasEdits_withEdits
    intro X parent hparent r hr
    exact beq_self_of_mem_editsOf hprepared hpreparedShaped hparent hr

end Draft

/-- Finishing what has been finished gives the same document and leaves the draft as it is. The
report differs in the counts of what was done only. -/
theorem Built.finish_again {ws : Workspace} (h : Built ws) {o : Options} {c : Compilation}
    {e : Draft} (hfinish : (Draft.finish o).perform ws.draft = (.ok c, e)) :
    ∃ c', (Draft.finish o).perform e = (.ok c', e) ∧ c'.grammar = c.grammar ∧
      c'.report = { c.report with
        unused := []
        normalizedTerminals := 0
        edits := { c.report.edits with insertions := 0, transpositions := 0 } } := by
  obtain ⟨hstart, unused, hcomplete⟩ := Draft.exists_of_finish hfinish
  have hsearchable : ws.draft.filled.Searchable :=
    StopWords.keeps_fill Draft.searchable_stepInvariant ws.draft h.searchable
  have hfinished := Draft.finished_complete hsearchable (Draft.shaped_filled h.shaped) hstart
    ws.draft.pendingStopWords_filled o unused
  have hcompiled := Draft.complete_compiled ws.draft.filled.trimmed o unused
  have hdraft := Draft.complete_draft ws.draft.filled.trimmed o unused
  rw [hcomplete] at hfinished hcompiled hdraft
  dsimp only at hfinished hcompiled hdraft
  have hcandidates : e.candidates.length =
      (ws.draft.filled.trimmed.tokenize.2.withEdits o.includeTrees).1.insertable := by
    rw [Draft.insertable_withEdits, hdraft, Draft.candidates_withEdits]
  refine ⟨_, hfinished.finish_eq, ?_, ?_⟩
  · simp only [hcompiled, Draft.compiled]
  · simp only [hcompiled, Draft.compiled, hcandidates]

/-- Two greetings are finished twice. -/
theorem finish_again_greetings : ∃ (c c' : Compilation) (e : Draft),
    (Draft.finish {}).perform greetings.draft = (.ok c, e) ∧
      (Draft.finish {}).perform e = (.ok c', e) ∧ c'.grammar = c.grammar := by
  have hok : ((Draft.finish {}).perform greetings.draft).1.isOk = true := by decide +kernel
  cases hfinish : (Draft.finish {}).perform greetings.draft with
  | mk outcome e =>
    cases outcome with
    | error err => simp [hfinish, Except.isOk, Except.toBool] at hok
    | ok c =>
      obtain ⟨c', hagain, hgrammar, -⟩ := built_greetings.finish_again hfinish
      exact ⟨c, c', e, rfl, hagain, hgrammar⟩

end QueryGrammar
