import QueryGrammar.Proofs.Document.Readable
import QueryGrammar.Proofs.Finish.Restored
import QueryGrammar.Proofs.Workspace.Rooted
/-!
Whether a compiled document can be read back. Every cost that is registered is checked to be finite,
but what is inserted costs as much as its words do together, and nobody checks that sum.
-/
namespace QueryGrammar

open Document

/-- All costs of semantics are finite. -/
def Vocabulary.Weighed (v : Vocabulary) : Prop := ∀ s ∈ v.definitions, s.cost.isFinite = true

namespace Draft

variable {d : Draft}

/-- In a document of a draft only edits may have a cost that is not finite. -/
theorem Searchable.finite_or_edit (hd : d.Searchable) (hshaped : d.Shaped)
    (hweighed : d.vocabulary.Weighed) {x : Float} (hx : x ∈ (ofDraft d).costs) :
    x.isFinite = true ∨ ∃ edit, (ofDraft d).HasEdit edit ∧ edit.cost = x := by
  rcases mem_costs_iff.mp hx with ⟨e, he, rfl⟩ | ⟨e, he, row, hrow, hx⟩
  · left
    obtain ⟨id, -, hpair⟩ := List.mem_filterMap.mp (Decoder.mem_of_mem_ofList he)
    obtain ⟨s, hs, rfl⟩ := Option.map_eq_some_iff.mp hpair
    exact hweighed s (List.mem_of_getElem? hs)
  · have hhas : (ofDraft d).HasRow e.1 row :=
      ⟨e.2, Keyed.find?_of_mem (ofDraft d).ruleSets.ascending.nodup_keys he, hrow⟩
    obtain ⟨X, -, r, hr, rfl⟩ := exists_rule_of_hasRow hd.consistent.names hhas
    simp only [NamedRule.costs, List.mem_append, Option.mem_toList, Option.map_eq_some_iff] at hx
    rcases hx with (hx | hx) | ⟨edit, hedit, rfl⟩
    · exact .inl (hshaped.finite_transpositionCost hr hx)
    · exact .inl (hd.finite_insertionCost hr hx)
    · refine .inr ⟨edit, ⟨e, he, _, hrow, hedit⟩, ?_⟩
      cases edit <;> rfl

end Draft

theorem Built.weighed {ws : Workspace} (h : Built ws) : ws.draft.vocabulary.Weighed := by
  have hweighed := vocabulary_callInvariant (P := Vocabulary.Weighed) fun {v w definition _} hv h => by
    obtain ⟨-, -, hcost, -, rfl⟩ := Vocabulary.register_eq h
    intro s hs
    rw [List.mem_append, List.mem_singleton] at hs
    rcases hs with hs | rfl
    · exact hv s hs
    · exact (Draft.isCost_iff.mp hcost).1
  exact (h.induction hweighed ⟨Draft.consistent_empty, by simp [Vocabulary.Weighed, Draft.empty]⟩).2

/-- What modules are compiled to is the document of a workspace that calls lead to. -/
theorem exists_built_of_compile {modules : List ContentModule} (hmodules : ∀ m ∈ modules, m.Calls)
    {o : Options} {c : Compilation} (h : compile modules o = .ok c) :
    ∃ ws, Built ws ∧ c.grammar = ofDraft ws.draft :=
  ⟨_, (Built.registerAll hmodules .init).call (.finish o), grammar_of_compile h⟩

/-- A compiled document carries the digest of its content. If the texts of its finite costs read back
as the same costs, it can be read exactly if all its edits have finite costs and it nests no deeper
than a reader goes, and what is read is the document. -/
theorem readable_compile_iff {modules : List ContentModule} (hmodules : ∀ m ∈ modules, m.Calls)
    {o : Options} {c : Compilation} (h : compile modules o = .ok c)
    (hexact : ∀ x ∈ c.grammar.costs, x.isFinite = true → (Numeral.ofFinite x).toFloat? = some x) :
    c.grammar.contentDigest = c.grammar.digest ∧
    ∀ g, ofText? c.grammar.toPretty = some g ↔ g = c.grammar ∧
      (∀ edit, c.grammar.HasEdit edit → edit.cost.isFinite = true) ∧
      c.grammar.toJson.depth ≤ maxLevels := by
  obtain ⟨ws, hws, heq⟩ := exists_built_of_compile hmodules h
  rw [heq] at hexact ⊢
  have hother := fun x hx => hws.searchable.finite_or_edit hws.shaped hws.weighed (x := x) hx
  exact ⟨(digest_ofDraft _).symm, fun g => ofText?_toPretty_iff hexact hother⟩

/-- A word that may be inserted twice in front of another, at this cost each time. -/
def doubled (cost : Float) : ContentModule where
  name := "doubled"
  register := do
    let word ← Registration.newSymbol ["a"]
    Registration.addRule word { Proposal.terminal "x" .verbatim with insertionCost := some cost }
    let pair ← Registration.newSymbol ["b"]
    Registration.addBinaryRule pair (.binary word word)
    let rest ← Registration.newSymbol ["c"]
    Registration.addRule rest (.terminal "y" .verbatim)
    Registration.addBinaryRule Draft.start (.binary pair rest)

theorem doubled_calls (cost : Float) : (doubled cost).Calls :=
  .bind (ModuleCall.register (.newSymbol _)).keepsBuilt fun _ =>
    .bind (ModuleCall.register (.addRule _ _)).keepsBuilt fun _ =>
      .bind (ModuleCall.register (.newSymbol _)).keepsBuilt fun _ =>
        .bind (ModuleCall.register (.addBinaryRule _ _)).keepsBuilt fun _ =>
          .bind (ModuleCall.register (.newSymbol _)).keepsBuilt fun _ =>
            .bind (ModuleCall.register (.addRule _ _)).keepsBuilt fun _ =>
              (ModuleCall.register (.addBinaryRule _ _)).keepsBuilt

namespace Document

/-- Whether the finite costs of a document read back, whether all its edits have finite costs, and
whether it nests within the limit. -/
def readingChecks (g : Document) : Bool × Bool × Bool :=
  (g.costs.all fun x => !x.isFinite || decide ((Numeral.ofFinite x).toFloat? = some x),
    g.ruleSets.entries.all fun e => e.2.all fun row => row.edit.all (·.cost.isFinite),
    decide (g.toJson.depth ≤ maxLevels))

variable {g : Document} {finite shallow : Bool}

theorem exact_of_readingChecks (h : g.readingChecks = (true, finite, shallow)) :
    ∀ x ∈ g.costs, x.isFinite = true → (Numeral.ofFinite x).toFloat? = some x := by
  intro x hx hfinite
  simpa [hfinite] using List.all_eq_true.mp (Prod.mk.inj h).1 x hx

theorem finite_iff_of_readingChecks {exact : Bool} (h : g.readingChecks = (exact, finite, shallow)) :
    (∀ edit, g.HasEdit edit → edit.cost.isFinite = true) ↔ finite = true := by
  obtain ⟨rfl, -⟩ := Prod.mk.inj (Prod.mk.inj h).2
  simp only [HasEdit, List.all_eq_true]
  constructor
  · intro hall e he row hrow
    cases hedit : row.edit with
    | none => rfl
    | some edit => exact hall edit ⟨e, he, row, hrow, hedit⟩
  · rintro hall edit ⟨e, he, row, hrow, hedit⟩
    simpa [hedit] using hall e he row hrow

theorem shallow_iff_of_readingChecks {exact : Bool} (h : g.readingChecks = (exact, finite, shallow)) :
    g.toJson.depth ≤ maxLevels ↔ shallow = true := by
  obtain ⟨-, rfl⟩ := Prod.mk.inj (Prod.mk.inj h).2
  rw [decide_eq_true_iff]

theorem exists_of_readingChecks {modules : List ContentModule} {o : Options}
    {checks : Bool × Bool × Bool}
    (h : ((compile modules o).map fun c => c.grammar.readingChecks).toOption = some checks) :
    ∃ c, compile modules o = .ok c ∧ c.grammar.readingChecks = checks := by
  cases hcompile : compile modules o with
  | error err => simp [hcompile, Except.map, Except.toOption] at h
  | ok c => exact ⟨c, rfl, by simpa [hcompile, Except.map, Except.toOption] using h⟩

end Document

theorem readable_compile_doubled : ∃ c, compile [doubled 0.5] {} = .ok c ∧
    c.grammar.contentDigest = c.grammar.digest ∧ ofText? c.grammar.toPretty = some c.grammar := by
  have hcalls : ∀ m ∈ [doubled 0.5], m.Calls := by simpa using doubled_calls 0.5
  obtain ⟨c, hc, hchecks⟩ : ∃ c, compile [doubled 0.5] {} = .ok c ∧
      c.grammar.readingChecks = (true, true, true) := exists_of_readingChecks (by decide +kernel)
  obtain ⟨hdigest, hread⟩ := readable_compile_iff hcalls hc (exact_of_readingChecks hchecks)
  exact ⟨c, hc, hdigest, (hread _).mpr ⟨rfl, (finite_iff_of_readingChecks hchecks).mpr rfl,
    (shallow_iff_of_readingChecks hchecks).mpr rfl⟩⟩

/-- At 1e308 each, two words together cost more than any double. -/
theorem exists_compile_not_readable : ∃ (modules : List ContentModule) (c : Compilation),
    (∀ m ∈ modules, m.Calls) ∧ compile modules {} = .ok c ∧
      (∀ x ∈ c.grammar.costs, x.isFinite = true → (Numeral.ofFinite x).toFloat? = some x) ∧
      ofText? c.grammar.toPretty = none := by
  obtain ⟨c, hc, hchecks⟩ : ∃ c, compile [doubled 1e308] {} = .ok c ∧
      c.grammar.readingChecks = (true, false, true) := exists_of_readingChecks (by decide +kernel)
  refine ⟨[doubled 1e308], c, by simpa using doubled_calls 1e308, hc,
    exact_of_readingChecks hchecks, ?_⟩
  cases hread : ofText? c.grammar.toPretty with
  | none => rfl
  | some g =>
    rw [ofText?_toPretty_eq] at hread
    exact absurd ((finite_iff_of_readingChecks hchecks).mp fun edit => isFinite_of_decode hread)
      Bool.false_ne_true

end QueryGrammar
