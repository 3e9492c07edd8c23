import QueryGrammar.Proofs.Document.Faithful
import QueryGrammar.Proofs.Workspace.Again
/-!
Attempts to finish that are refused. Stop words are filled before anything is checked, and what is
checked afterwards is refused with nothing else done. So a refused attempt leaves the stop words
filled: the draft is as before exactly if none waited, and otherwise words are settled too early, for
the symbols that they have to avoid may still be given rules.
-/
namespace QueryGrammar

open Change

namespace Draft

variable {d e : Draft} {o : Options} {err : BuildError}

/-- What follows the stop words is refused as a whole. -/
theorem eq_filled_of_refused_finish (h : (finish o).perform d = (.error err, e)) :
    e = d.filled := by
  rw [finish, perform_bind] at h
  rw [filled]
  cases hfill : StopWords.fill.perform d with
  | mk outcome f =>
    rw [hfill] at h
    cases outcome with
    | error _ => exact (Prod.mk.inj h).2.symm
    | ok count =>
      dsimp only at h
      rw [perform_bind, perform_call] at h
      cases hremove : f.removeUnused o.unusedPolicy with
      | error _ =>
        rw [hremove] at h
        exact (Prod.mk.inj h).2.symm
      | ok result =>
        rw [hremove] at h
        cases h

theorem filled_eq_self_iff : d.filled = d ↔ d.pendingStopWords = [] := by
  constructor
  · intro h
    rw [← h]
    exact d.pendingStopWords_filled
  · intro h
    rw [filled, fill_of_none h]

/-- Where the stop words could be filled, it makes no difference whether they have been. -/
theorem finish_filled (hfill : (StopWords.fill.perform d).1.isOk = true) (o : Options) :
    (finish o).perform d.filled = (finish o).perform d := by
  obtain ⟨count, hcount⟩ := exists_of_isOk hfill
  have hd : StopWords.fill.perform d = (.ok count, d.filled) := Prod.ext hcount rfl
  rw [finish, perform_bind, fill_of_none d.pendingStopWords_filled, perform_bind, hd]

/-- An attempt to finish that is refused leaves the draft with its stop words filled. This is the draft
as it was exactly if none of them waited; and as long as nothing is registered in between, another
attempt ends as if there had been none, unless the stop words themselves were refused. -/
theorem refused_finish_unchanged_iff (h : (finish o).perform d = (.error err, e)) :
    (e = d ↔ d.pendingStopWords = []) ∧ e = d.filled ∧
      ((StopWords.fill.perform d).1.isOk = true →
        ∀ o', (finish o').perform e = (finish o').perform d) := by
  obtain rfl := eq_filled_of_refused_finish h
  exact ⟨filled_eq_self_iff, rfl, finish_filled⟩

/-- Two greetings and a word that nothing uses. -/
def stray : Workspace :=
  ((Registration.addWord "stray" ["stray"] [] none).perform greetings).2

theorem refused_finish_unchanged_stray : ∃ (err : BuildError) (e : Draft),
    (finish {}).perform stray.draft = (.error err, e) ∧ e = stray.draft := by
  obtain ⟨err, hrefused⟩ := exists_of_not_isOk
    (show ((finish {}).perform stray.draft).1.isOk = false by decide +kernel)
  exact ⟨err, _, hrefused, (refused_finish_unchanged_iff hrefused).1.mpr (by decide +kernel)⟩

end Draft

/-! ### An attempt that is made too early -/

/-- A symbol with a negation beside it, before it has rules. -/
def auxiliary : Workspace :=
  let declared := ((Registration.newSymbol ["aux"]).perform {}).2
  ((Workspace.negation (some ⟨1⟩)).perform declared).2

theorem built_auxiliary : Built auxiliary :=
  (Built.init.call (.register (.newSymbol ["aux"]))).call (.register (.negation (some ⟨1⟩)))

/-- The symbol is given the word "do", the start symbol reads it negated, and the grammar is
finished. -/
def finishNegated : Change Draft Compilation := do
  Change.call fun d => return ((), ← d.addRule ⟨1⟩ (.terminal "do" .verbatim))
  Change.call fun d => return ((), ← d.addRule Draft.start (.binary ⟨3⟩ ⟨1⟩))
  Draft.finish {}

/-- Whether some rule reads the word as a stop word. -/
def Document.skips (g : Document) (word : String) : Bool :=
  g.rules.any fun r => decide (r.rhs = .terminal word) && decide (r.text = some .silent)

/-- Whether some rule of a live symbol reads the word as a stop word. -/
def Draft.skips (d : Draft) (word : String) : Bool :=
  d.liveSymbols.any fun X => (d.rules X).any fun r => match r.expansion with
    | .terminal term .silent => term == word
    | _ => false

/-- The document of a draft reads the stop words that the draft reads. -/
theorem Draft.skips_ofDraft {d : Draft} (hnames : (d.symbols.map (·.name)).Nodup) (word : String) :
    (Document.ofDraft d).skips word = d.skips word := by
  have hrow : ∀ r : Rule, ((d.namedRule r).rhs = .terminal word ∧
      (d.namedRule r).text = some .silent) ↔ r.expansion = .terminal word .silent := by
    intro r
    cases hx : r.expansion with
    | terminal term text => cases text <;> simp [namedRule, namedExpansion, hx, writtenText]
    | _ => simp [namedRule, namedExpansion, hx]
  have hmatch : ∀ x : Expansion, (match x with
      | .terminal term .silent => term == word
      | _ => false) = true ↔ x = .terminal word .silent := by
    intro x
    cases x with
    | terminal term text => cases text <;> simp
    | _ => simp
  rw [Bool.eq_iff_iff]
  simp only [Document.skips, skips, List.any_eq_true, Bool.and_eq_true, decide_eq_true_eq, hmatch]
  constructor
  · rintro ⟨row, hmem, hrhs, htext⟩
    obtain ⟨rows, hrows, hmem⟩ := List.mem_flatten.mp hmem
    obtain ⟨entry, hentry, rfl⟩ := List.mem_map.mp hrows
    obtain ⟨X, hX, hname, hset⟩ := (find?_ruleSets_iff hnames).mp
      (Keyed.find?_of_mem (Document.ofDraft d).ruleSets.ascending.nodup_keys hentry)
    rw [← hset] at hmem
    obtain ⟨r, hr, rfl⟩ := List.mem_map.mp (NamedRule.mem_of_mem_canonical hmem)
    exact ⟨X, hX, r, hr, (hrow r).mp ⟨hrhs, htext⟩⟩
  · rintro ⟨X, hX, r, hr, hx⟩
    obtain ⟨kept, hkept, hkey⟩ := Keyed.exists_mem_distinct NamedRule.sortKey
      (List.mem_map_of_mem (f := d.namedRule) hr)
    obtain ⟨hrhs, htext⟩ := (hrow r).mpr hx
    refine ⟨kept, List.mem_flatten.mpr ⟨_, List.mem_map.mpr
      ⟨_, Keyed.mem_of_find? (find?_ruleSets hnames hX), rfl⟩, hkept⟩, ?_, ?_⟩
    · exact (NamedRule.alike_of_sortKey_eq hkey).rhs.trans hrhs
    · exact (NamedRule.text_eq_of_sortKey_eq hkey).trans htext

/-- What the attempt is finished to reads the stop words that the draft it leaves reads. -/
theorem skips_finishNegated {d : Draft} (hd : d.Consistent) {word : String} {skipped : Bool}
    (h : (match finishNegated.perform d with
      | (.ok _, e) => some (e.skips word)
      | _ => none) = some skipped) :
    (finishNegated.perform d).1.toOption.map (·.grammar.skips word) = some skipped := by
  have hkeeps : Keeps Draft.Consistent finishNegated := by
    refine Keeps.bind (Keeps.call fun d a e hd h => ?_) fun _ =>
      Keeps.bind (Keeps.call fun d a e hd h => ?_) fun _ => consistent_callInvariant.keeps_finish {}
    all_goals
      obtain ⟨f, hf, heq⟩ := Outcome.ok_of_bind h
      cases heq
      exact hd.addRule hf
  have hconsistent := hkeeps d hd
  cases hperform : finishNegated.perform d with
  | mk outcome e =>
    rw [hperform] at h hconsistent
    cases outcome with
    | error err => cases h
    | ok c =>
      obtain ⟨_, f, -, hrest⟩ := perform_bind_eq_ok_iff.mp hperform
      obtain ⟨_, g, -, hfinish⟩ := perform_bind_eq_ok_iff.mp hrest
      obtain ⟨-, unused, hcomplete⟩ := Draft.exists_of_finish hfinish
      have hgrammar : c.grammar = Document.ofDraft e := by
        have hdocument := g.filled.trimmed.complete_grammar {} unused
        rwa [hcomplete] at hdocument
      rw [← h]
      simp only [Except.toOption, Option.map_some, hgrammar,
        Draft.skips_ofDraft hconsistent.names]

/-- An attempt that comes before the word "do" is refused, and "do" is a stop word before itself
ever after. -/
theorem exists_refused_finish_changed : ∃ (ws : Workspace) (err : BuildError) (e : Draft),
    Built ws ∧ (Draft.finish {}).perform ws.draft = (.error err, e) ∧ e ≠ ws.draft ∧
      (finishNegated.perform ws.draft).1.toOption.map (·.grammar.skips "do") = some false ∧
      (finishNegated.perform e).1.toOption.map (·.grammar.skips "do") = some true := by
  obtain ⟨err, hrefused⟩ := exists_of_not_isOk
    (show ((Draft.finish {}).perform auxiliary.draft).1.isOk = false by decide +kernel)
  refine ⟨auxiliary, err, _, built_auxiliary, hrefused, fun heq => ?_, ?_, ?_⟩
  · have hfilled := (Draft.eq_filled_of_refused_finish hrefused).symm.trans heq
    exact absurd (Draft.filled_eq_self_iff.mp hfilled) (by decide)
  · exact skips_finishNegated built_auxiliary.consistent (by decide +kernel)
  · exact skips_finishNegated
      (consistent_callInvariant.keeps_finish {} _ built_auxiliary.consistent) (by decide +kernel)

end QueryGrammar
