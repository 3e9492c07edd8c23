import QueryGrammar.Proofs.Named.Document
import QueryGrammar.Proofs.Named.Edited
import QueryGrammar.Proofs.Named.Filled
import QueryGrammar.Proofs.Named.Tokenized
import QueryGrammar.Proofs.Named.Trimmed
import QueryGrammar.Proofs.Workspace.Built
/-!
What a registered draft is finished to, by name. Drafts that say the same by name are finished to the
same document exactly when the search for insertions finds the same for them.
-/
namespace QueryGrammar.Draft

variable {d e : Draft} {includeTrees : Bool}

/-- The drafts say the same by name, whatever the order in which it was registered. -/
structure SameContent (d e : Draft) : Prop extends SameTerms d e where
  rows : d.HasRow = e.HasRow
  awaits : d.Awaits = e.Awaits

/-- The draft as the search for insertions finds it. -/
def prepared (d : Draft) : Draft := d.filled.trimmed.tokenize.2

/-! ### Terms -/

theorem SameTerms.refl (d : Draft) : SameTerms d d := ⟨fun _ => Iff.rfl, fun _ _ => Iff.rfl⟩

theorem SameTerms.trans {f : Draft} (h : SameTerms d e) (h' : SameTerms e f) : SameTerms d f :=
  ⟨fun s => (h.definitions s).trans (h'.definitions s),
    fun name instances => (h.categories name instances).trans (h'.categories name instances)⟩

theorem sameTerms_of_eq (hvocabulary : e.vocabulary = d.vocabulary)
    (hcategories : e.entityCategories = d.entityCategories) : SameTerms d e := by
  constructor
  · simp [hvocabulary]
  · simp [HasCategory, hcategories]

theorem names_trimmed_categories (d : Draft) :
    d.trimmed.entityCategories.map (·.name) = d.entityCategories.map (·.name) := by
  apply List.ext_getElem?
  intro i
  rw [List.getElem?_map, List.getElem?_map, trimmed_entityCategories]
  cases d.entityCategories[i]? <;> rfl

theorem sameTerms_trimmed (d : Draft) : SameTerms d d.trimmed := by
  refine ⟨by simp, fun name instances => ?_⟩
  simp only [HasCategory, List.mem_iff_getElem?, trimmed_entityCategories, Option.map_eq_some_iff]
  constructor
  · rintro ⟨c, ⟨i, hi⟩, rfl, rfl⟩
    exact ⟨_, ⟨i, c, hi, rfl⟩, rfl, rfl⟩
  · rintro ⟨_, ⟨i, c, hi, rfl⟩, rfl, rfl⟩
    exact ⟨c, ⟨i, hi⟩, rfl, rfl⟩

/-! ### Costs -/

theorem unsigned_split {row : NamedRule} (h : row.Unsigned) : row.split.Unsigned := by
  intro c hc
  apply h
  unfold NamedRule.split at hc
  split at hc
  · split at hc
    · simp [NamedRule.costs] at hc ⊢
      grind
    · exact hc
    · exact hc
  · exact hc

theorem unsigned_madeRow (tokens : List String) : (madeRow tokens).Unsigned := by
  have hnone : (madeRow tokens).costs = [] := by
    rcases tokens with _ | ⟨token, _ | ⟨next, rest⟩⟩ <;> rfl
  simp [NamedRule.Unsigned, hnone]

theorem unsigned_stopRow (word : String) : (stopRow word).Unsigned := by
  simp [NamedRule.Unsigned, NamedRule.costs, stopRow]

/-! ### Stages -/

theorem fill_of_finish {o : Options} {c : Compilation} (h : (finish o).perform d = (.ok c, e)) :
    ∃ count, StopWords.fill.perform d = (.ok count, d.filled) := by
  obtain ⟨count, f, hfill, -⟩ := Change.perform_bind_eq_ok_iff.mp h
  have hf : f = d.filled := (congrArg Prod.snd hfill).symm
  exact ⟨count, hf ▸ hfill⟩

section Stages

variable (hd : d.Sound) (hconsistent : d.Consistent) (hunsigned : d.Unsigned)
variable {count : Nat} (hfill : StopWords.fill.perform d = (.ok count, d.filled))
variable (hstart : d.filled.Expands start)

include hd hstart in
theorem Sound.tokenized_prepared :
    Tokenized NoneKnown d.filled.trimmed d.filled.trimmed.liveSymbols d.prepared := by
  have htrimmed := hd.filled.trimmed hstart
  exact tokenized_tokenize (knowsMade_of_bracketed htrimmed.bracketed)
    fun X r hr => (htrimmed.wellFormed.terms X r hr).splittable

include hd hconsistent hfill hstart

/-- What the search finds is settled by what was registered. -/
theorem Sound.hasRow_prepared_iff {name : String} {row : NamedRule} :
    d.prepared.HasRow name row ↔
      (∃ old, d.filled.HasRow.productions.Applies (d.symbolName start) name old ∧
        row = old.split) ∨
      ∃ tokens, Rows.Needs (d.filled.HasRow.productions.Applies (d.symbolName start)) tokens ∧
        name = rowName tokens ∧ row = madeRow tokens := by
  have hname : d.filled.symbolName start = d.symbolName start :=
    (StopWords.gains_fill hfill).names start
  have hrows : d.filled.trimmed.HasRow =
      d.filled.HasRow.productions.Applies (d.symbolName start) := by
    funext name row
    rw [hconsistent.filled.hasRow_trimmed_iff hstart, hname]
  rw [(hd.tokenized_prepared hstart).hasRow_iff (hd.filled.trimmed hstart).wellFormed.parts, hrows]

include hunsigned in
theorem Sound.unsigned_prepared : d.prepared.Unsigned := by
  have hfilled : ∀ name row, d.filled.HasRow name row → row.Unsigned := by
    intro name row hrow
    rcases (hd.hasRow_filled_iff hfill).mp hrow with hrow | ⟨_, word, -, -, rfl⟩
    · exact unsigned_iff.mp hunsigned name row hrow
    · exact unsigned_stopRow word
  refine unsigned_iff.mpr fun name row hrow => ?_
  rcases (hd.hasRow_prepared_iff hconsistent hfill hstart).mp hrow with
    ⟨old, happlies, rfl⟩ | ⟨tokens, -, -, rfl⟩
  · exact unsigned_split (hfilled name old happlies.expands.1)
  · exact unsigned_madeRow tokens

end Stages

/-- What a registered draft is finished to: its terms, and its rows with all edits. -/
structure FinishedAs (d : Draft) (includeTrees : Bool) (e : Draft) : Prop where
  consistent : e.Consistent
  used : e.Used
  attachesLive : e.AttachesLive
  categories : (e.entityCategories.map (·.name)).Nodup
  terms : SameTerms d e
  start : e.symbolName start = d.symbolName start
  rows : ∀ name row, e.HasRow name row ↔
    d.prepared.HasRow name row ∨ (∃ old, d.prepared.HasRow name old ∧ old.exchanged? = some row) ∨
      d.prepared.InsertionRow includeTrees name row

theorem Sound.finishedAs (hd : d.Sound) (hconsistent : d.Consistent) (hunsigned : d.Unsigned)
    {o : Options} {c : Compilation} (hfinish : (finish o).perform d = (.ok c, e)) :
    FinishedAs d o.includeTrees e ∧ c.grammar = Document.ofDraft e := by
  obtain ⟨count, hfill⟩ := fill_of_finish hfinish
  obtain ⟨hstart, unused, hcomplete⟩ := exists_of_finish hfinish
  have hgains := StopWords.gains_fill hfill
  have htrimmed := hd.filled.trimmed hstart
  have htok := hd.tokenized_prepared hstart
  have hnoneLive : KnowsLive NoneKnown d.filled.trimmed := fun _ _ h => h.elim
  have hplain : ∀ X, ∀ r ∈ d.prepared.rules X, r.edit = none := fun X r hr =>
    htok.unedited hnoneLive htrimmed.unedited hr
  have hparts : ∀ X, ∀ r ∈ d.prepared.rules X, ∀ Y ∈ r.expansion.parts, Y ∈ d.prepared.liveSymbols :=
    fun X r hr Y hY => htok.parts_live hnoneLive htrimmed.wellFormed.parts hr hY
  have hadds := d.prepared.addsRules_withEdits o.includeTrees
  have he : e = (d.prepared.withEdits o.includeTrees).2 := by
    have hdraft := complete_draft d.filled.trimmed o unused
    rw [hcomplete] at hdraft
    exact hdraft
  have hgrammar : c.grammar = Document.ofDraft e := by
    have hdocument := complete_grammar d.filled.trimmed o unused
    rw [hcomplete] at hdocument
    exact hdocument
  obtain ⟨hall, hused⟩ := hconsistent.filled.complete_trimmed hstart o unused
  rw [hcomplete] at hall hused
  have hcategories : e.entityCategories = d.filled.trimmed.entityCategories := by
    rw [he, hadds.rest, htok.rest]
  have hvocabulary : e.vocabulary = d.filled.trimmed.vocabulary := by
    rw [he, hadds.rest, htok.rest]
  refine ⟨⟨hall, hused, ?_, ?_, ?_, ?_, ?_⟩, hgrammar⟩
  · rw [he, attachesLive_withEdits_iff, prepared,
      (hconsistent.filled.trimmed hstart).tokenized.attachesLive_iff,
      attachesLive_trimmed_iff hstart]
    intro X r hr a ha id hid
    rw [mem_liveSemantics_iff, hd.filled.semantics]
    exact ⟨(hd.filled.rule hr.expands.1).semantics a ha id hid, List.not_mem_nil⟩
  · rw [hcategories, names_trimmed_categories]
    exact hd.filled.categories
  · exact (sameTerms_of_eq hgains.vocabulary hgains.entityCategories).trans
      (d.filled.sameTerms_trimmed.trans (sameTerms_of_eq hvocabulary hcategories))
  · rw [he, hadds.symbolName_eq, htok.symbolName_eq htrimmed.startLive, trimmed_symbolName,
      hgains.names]
  · intro name row
    rw [he]
    exact hasRow_withEdits_iff (hd.unsigned_prepared hconsistent hunsigned hfill hstart) hplain hparts

/-! ### Two drafts -/

variable {d' e' : Draft}

/-- An insertion is written as none of the other rows is. -/
theorem FinishedAs.writes_insertion (h : FinishedAs d includeTrees e) {name key : String}
    (hplain : ∀ name row, d.prepared.HasRow name row → row.edit = none) {row : NamedRule}
    {i : NamedInsertion} (hi : row.edit = some (.insertion i)) (hkey : row.sortKey = key)
    (hwrites : e.HasRow.Writes name key) : (d.prepared.InsertionRow includeTrees).Writes name key := by
  obtain ⟨other, hother, hotherKey⟩ := hwrites
  have hjson := NamedRule.editJson_eq_of_sortKey_eq (hotherKey.trans hkey.symm)
  rw [hi] at hjson
  rcases (h.rows name other).mp hother with hrow | ⟨old, -, hrow⟩ | hrow
  · simp [hplain name other hrow] at hjson
  · obtain ⟨cost, hcost⟩ : ∃ cost, other.edit = some (.transposition cost) := by
      unfold NamedRule.exchanged? at hrow
      split at hrow
      · cases hrow
        exact ⟨_, rfl⟩
      · simp at hrow
    rw [hcost] at hjson
    have hmembers := Json.record_inj (Option.some.inj hjson)
    simp at hmembers
  · exact ⟨other, hrow, hotherKey⟩

theorem exists_insertion {name : String} {row : NamedRule}
    (h : d.InsertionRow includeTrees name row) : ∃ i, row.edit = some (.insertion i) := by
  obtain ⟨X, parent, -, r, hr, -, rfl⟩ := h
  obtain ⟨_, _, _, _, c, -, ⟨-, -, rfl⟩ | ⟨-, -, rfl⟩⟩ := mem_insertionsOf_cases hr
  · exact ⟨_, rfl⟩
  · exact ⟨_, rfl⟩

/-- Drafts of the same content are prepared with the same rows. -/
theorem SameContent.hasRow_prepared_eq (h : SameContent d d') (hd : d.Sound) (hd' : d'.Sound)
    (hconsistent : d.Consistent) (hconsistent' : d'.Consistent)
    (hname : d.symbolName start = d'.symbolName start) {o : Options} {c c' : Compilation}
    (hfinish : (finish o).perform d = (.ok c, e))
    (hfinish' : (finish o).perform d' = (.ok c', e')) :
    d.prepared.HasRow = d'.prepared.HasRow := by
  obtain ⟨count, hfill⟩ := fill_of_finish hfinish
  obtain ⟨count', hfill'⟩ := fill_of_finish hfinish'
  have hstart := (exists_of_finish hfinish).1
  have hstart' := (exists_of_finish hfinish').1
  have hfilled : d.filled.HasRow = d'.filled.HasRow := by
    funext name row
    rw [hd.hasRow_filled_iff hfill, hd'.hasRow_filled_iff hfill', h.rows, h.awaits]
  funext name row
  rw [hd.hasRow_prepared_iff hconsistent hfill hstart,
    hd'.hasRow_prepared_iff hconsistent' hfill' hstart', hfilled, hname]

/-- Drafts of the same content are finished to the same document exactly when the search finds the
same insertions for them. -/
theorem SameContent.toJson_eq_iff (h : SameContent d d') (hd : d.Sound) (hd' : d'.Sound)
    (hconsistent : d.Consistent) (hconsistent' : d'.Consistent) (hunsigned : d.Unsigned)
    (hname : d.symbolName start = d'.symbolName start) {o : Options} {c c' : Compilation}
    (hfinish : (finish o).perform d = (.ok c, e)) (hfinish' : (finish o).perform d' = (.ok c', e')) :
    c.grammar.toJson = c'.grammar.toJson ↔ ∀ name key,
      (d.prepared.InsertionRow o.includeTrees).Writes name key ↔
        (d'.prepared.InsertionRow o.includeTrees).Writes name key := by
  have hunsigned' : d'.Unsigned := unsigned_iff.mpr (h.rows ▸ unsigned_iff.mp hunsigned)
  obtain ⟨hall, hgrammar⟩ := hd.finishedAs hconsistent hunsigned hfinish
  obtain ⟨hall', hgrammar'⟩ := hd'.finishedAs hconsistent' hunsigned' hfinish'
  have hrows := h.hasRow_prepared_eq hd hd' hconsistent hconsistent' hname hfinish
    hfinish'
  have hterms : SameTerms e e' := hall.terms.symm.trans (h.toSameTerms.trans hall'.terms)
  have hplain : ∀ name row, d.prepared.HasRow name row → row.edit = none := by
    rintro _ _ ⟨X, r, hr, -, rfl⟩
    have htok := hd.tokenized_prepared (exists_of_finish hfinish).1
    have htrimmed := hd.filled.trimmed (exists_of_finish hfinish).1
    simp [namedRule, htok.unedited (fun _ _ h => h.elim) htrimmed.unedited hr]
  rw [hgrammar, hgrammar',
    Document.toJson_ofDraft_eq_iff (hall.start.trans (hname.trans hall'.start.symm))]
  have hcontent : (Document.ofDraft e).contentMembers = (Document.ofDraft e').contentMembers ↔
      ∀ name key, e.HasRow.Writes name key ↔ e'.HasRow.Writes name key := by
    rw [← hall.consistent.mapJson_ruleSets_eq_iff hall'.consistent hall.used hall'.used]
    constructor
    · intro heq
      exact (Prod.mk.inj (List.cons.inj heq).1).2
    · intro heq
      have hwrites := (hall.consistent.mapJson_ruleSets_eq_iff hall'.consistent hall.used
        hall'.used).mp heq
      have hsemantics := hall.consistent.semanticTraits_eq hall'.consistent hterms hall.used
        hall'.used hall.attachesLive hall'.attachesLive hwrites
      have hcategories := hall.consistent.categoryInstances_eq hall'.consistent hterms hall.used
        hall'.used hall.categories hall'.categories hwrites
      simp only [Document.contentMembers, Document.ofDraft, heq, hsemantics, hcategories]
  rw [hcontent]
  constructor
  · intro heq name key
    constructor
    · rintro ⟨row, hrow, hkey⟩
      obtain ⟨i, hi⟩ := exists_insertion hrow
      refine hall'.writes_insertion (hrows ▸ hplain) hi hkey ((heq name key).mp ?_)
      exact ⟨row, (hall.rows name row).mpr (Or.inr (Or.inr hrow)), hkey⟩
    · rintro ⟨row, hrow, hkey⟩
      obtain ⟨i, hi⟩ := exists_insertion hrow
      refine hall.writes_insertion hplain hi hkey ((heq name key).mpr ?_)
      exact ⟨row, (hall'.rows name row).mpr (Or.inr (Or.inr hrow)), hkey⟩
  · intro heq name key
    simp only [Rows.Writes, hall.rows, hall'.rows, or_and_right, exists_or] at heq ⊢
    rw [hrows, heq]

end QueryGrammar.Draft
