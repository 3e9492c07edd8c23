import QueryGrammar.Proofs.Document.Faithful
import QueryGrammar.Proofs.Document.Shape
import QueryGrammar.Proofs.Finish.Supplies
import QueryGrammar.Proofs.Finish.WellFormed
import QueryGrammar.Proofs.Named.Compiled
import QueryGrammar.Proofs.Workspace.Again
/-!
What a parser accepts through edits stands for input without any. Every edit in a derivation can be
undone: a row that reads one part alone gives way to the row over both parts, with a derivation of
the part that was supplied, and an exchange to the row it exchanges. Main statement: a derivation by
all rows of a document is restored to one by rows that are no edits.
-/
namespace QueryGrammar

/-! ### Undoing edits -/

namespace Side

/-- The part that is supplied and the part that is read, in the order they stand in. -/
def around {α : Type} (supplied kept : α) : Side → List α
  | before => [supplied, kept]
  | after => [kept, supplied]

/-- The position of the part that is supplied. -/
def omitted : Side → UInt64
  | before => 0
  | after => 1

theorem map_around {α β : Type} (f : α → β) (supplied kept : α) (side : Side) :
    (side.around supplied kept).map f = side.around (f supplied) (f kept) := by
  cases side <;> rfl

theorem mem_around_iff {α : Type} {x supplied kept : α} {side : Side} :
    x ∈ side.around supplied kept ↔ x = supplied ∨ x = kept := by
  cases side
  · simp [around]
  · simp [around, or_comm]

end Side

/-- The row is what an edit of it departs from. -/
structure NamedRule.Replaces (old edit : NamedRule) (names : List String) : Prop where
  unedited : old.edit = none
  rhs : old.rhs = .symbols names
  semantic : old.semantic = edit.semantic
  features : old.features = edit.features

namespace Document

variable (g : Document)

/-- All rows of a document, edits among them. -/
def allProductions : Productions String NamedRule Token NamedAttachment :=
  { g.productions with has := g.HasRow }

/-- The derivation expands a provenance. Its inner nodes apply rows over symbols that close no part
to insertion, and each leaf a lexical row with an insertion cost, whatever that row reads. -/
inductive Follows : Provenance → Derivation String NamedRule → Prop where
  | leaf {symbol : String} {text : List Segment} {row : NamedRule}
      {ts : List (Derivation String NamedRule)} (lexical : row.rhs.isLexical = true)
      (priced : row.insertionCost.isSome = true) :
      Follows (.mk symbol text []) (.node symbol row ts)
  | node {symbol : String} {trees : List Provenance} {row : NamedRule}
      {ts : List (Derivation String NamedRule)}
      (rhs : row.rhs = .symbols (trees.map Provenance.symbol))
      (allowed : row.noInsertionIndexes = []) (parts : List.Forall₂ Follows trees ts) :
      Follows (.mk symbol [] trees) (.node symbol row ts)

/-- The second derivation is the first with every edit undone. -/
inductive Restores : Derivation String NamedRule → Derivation String NamedRule → Prop where
  | kept {symbol : String} {row : NamedRule} {ts us : List (Derivation String NamedRule)}
      (unedited : row.edit = none) (parts : List.Forall₂ Restores ts us) :
      Restores (.node symbol row ts) (.node symbol row us)
  | inserted {symbol : String} {row old : NamedRule} {i : NamedInsertion} {tree : Provenance}
      {t u supplied : Derivation String NamedRule} (edit : row.edit = some (.insertion i))
      (provenance : i.tree = some tree)
      (replaces : old.Replaces row (i.position.around tree.symbol t.symbol))
      (allowed : i.position.omitted ∉ old.noInsertionIndexes) (follows : Follows tree supplied)
      (part : Restores t u) :
      Restores (.node symbol row [t]) (.node symbol old (i.position.around supplied u))
  | exchanged {symbol : String} {row old : NamedRule} {cost : Float}
      {t t' u u' : Derivation String NamedRule} (edit : row.edit = some (.transposition cost))
      (replaces : old.Replaces row [t'.symbol, t.symbol])
      (price : old.transpositionCost = some cost) (second : Restores t u)
      (first : Restores t' u') :
      Restores (.node symbol row [t, t']) (.node symbol old [u', u])

variable {g}

theorem productions_has_iff {name : String} {row : NamedRule} :
    g.productions.has name row ↔ g.HasRow name row ∧ row.edit = none := by
  constructor
  · rintro ⟨rows, hrows, hrow, hedit⟩
    exact ⟨⟨rows, hrows, hrow⟩, hedit⟩
  · rintro ⟨⟨rows, hrows, hrow⟩, hedit⟩
    exact ⟨rows, hrows, hrow, hedit⟩

theorem Restores.symbol_eq {t u : Derivation String NamedRule} (h : Restores t u) :
    u.symbol = t.symbol := by
  cases h <;> rfl

end Document

theorem exists_forall₂ {α β : Type} {P : α → β → Prop} {xs : List α}
    (h : ∀ x ∈ xs, ∃ y, P x y) : ∃ ys, List.Forall₂ P xs ys := by
  induction xs with
  | nil => exact ⟨[], .nil⟩
  | cons x xs ih =>
    obtain ⟨y, hy⟩ := h x (by simp)
    obtain ⟨ys, hys⟩ := ih fun z hz => h z (List.mem_cons_of_mem _ hz)
    exact ⟨y :: ys, .cons hy hys⟩

theorem map_eq_of_forall₂ {α β γ : Type} {f : α → γ} {g : β → γ} {xs : List α} {ys : List β}
    (h : List.Forall₂ (fun x y => g y = f x) xs ys) : ys.map g = xs.map f := by
  induction h with
  | nil => rfl
  | cons hhead _ ih => rw [List.map_cons, List.map_cons, hhead, ih]

theorem forall_of_forall₂ {α β : Type} {P : β → Prop} {xs : List α} {ys : List β}
    (h : List.Forall₂ (fun _ y => P y) xs ys) : ∀ y ∈ ys, P y := by
  induction h with
  | nil => simp
  | cons hhead _ ih => simpa using ⟨hhead, ih⟩

namespace Draft

variable {d e : Draft}

/-! ### Rows of a draft with its edits -/

theorem Searchable.finite_insertionCost (hd : d.Searchable) {X : SymbolId} {r : Rule}
    (hr : r ∈ d.rules X) {cost : Float} (hcost : (d.namedRule r).insertionCost = some cost) :
    cost.isFinite = true :=
  (isCost_iff.mp (hd.priced X r hr cost hcost)).1

theorem Shaped.finite_transpositionCost (hshaped : d.Shaped) {X : SymbolId} {r : Rule}
    (hr : r ∈ d.rules X) {cost : Float} (hcost : (d.namedRule r).transpositionCost = some cost) :
    cost.isFinite = true := by
  cases hx : r.expansion with
  | binary first second price excluded =>
    have hprice : price = some cost := by
      simpa [namedRule, namedExpansion, hx] using hcost
    rw [hprice] at hx
    exact (isCost_iff.mp ((hshaped.rules X r hr).transposition first second cost excluded hx)).1
  | _ => simp [namedRule, namedExpansion, hx] at hcost

/-- The costs of a rule that is no edit were checked, so its row is told apart from all others. -/
theorem Searchable.finite_namedRule (hd : d.Searchable) (hshaped : d.Shaped) {X : SymbolId}
    {r : Rule} (hr : r ∈ d.rules X) (hplain : r.edit = none) : (d.namedRule r).Finite := by
  constructor
  · exact fun cost => hd.finite_insertionCost hr
  · exact fun cost => hshaped.finite_transpositionCost hr
  · intro edit hedit
    simp [namedRule, hplain] at hedit

theorem Searchable.hasRow_namedRule (hd : d.Searchable) (hshaped : d.Shaped) {X : SymbolId}
    {r : Rule} (hr : r ∈ d.rules X) (hplain : r.edit = none) :
    (Document.ofDraft d).HasRow (d.symbolName X) (d.namedRule r) := by
  have hmem := List.mem_map_of_mem (f := d.namedRule) hr
  exact (hasRow_ofDraft_iff hd.consistent.names).mpr ⟨X, live_of_mem_rules hr, rfl,
    NamedRule.mem_canonical (hd.finite_namedRule hshaped hr hplain) hmem⟩

theorem symbol_provenance (d : Draft) (t : Derivation SymbolId Rule) :
    (d.provenance t).symbol = d.symbolName t.symbol := by
  cases t
  rw [provenance_node]
  rfl

theorem lexical_of_canSupply {r : Rule} (hcan : r.CanSupply)
    (hlexical : r.expansion.isLexical = true) (d : Draft) :
    (d.namedRule r).rhs.isLexical = true ∧ (d.namedRule r).insertionCost.isSome = true := by
  unfold Rule.CanSupply at hcan
  cases hx : r.expansion <;>
    simp_all [namedRule, namedExpansion, NamedRhs.isLexical, Expansion.isLexical]

theorem symbols_of_canSupply {r : Rule} (hcan : r.CanSupply)
    (hlexical : ¬ r.expansion.isLexical = true) (d : Draft) :
    (d.namedRule r).rhs = .symbols (r.expansion.needed.map d.symbolName) ∧
      (d.namedRule r).noInsertionIndexes = [] := by
  unfold Rule.CanSupply at hcan
  cases hx : r.expansion with
  | unary part noInsertion =>
    rw [hx] at hcan
    simp_all [namedRule, namedExpansion, Expansion.needed]
  | binary first second cost excluded =>
    rw [hx] at hcan
    obtain ⟨closed, other⟩ := excluded
    obtain ⟨rfl, rfl⟩ : closed = false ∧ other = false := by simpa [Excluded.any] using hcan
    simp [namedRule, namedExpansion, Expansion.needed, hx, Excluded.indexes]
  | terminal term text => simp [hx, Expansion.isLexical] at hlexical
  | sequence first second text => simp [hx, Expansion.isLexical] at hlexical
  | placeholder category => simp [hx] at hcan

/-- Every rule is applied by its row, whatever derivations its parts have. -/
theorem exists_applied (hnames : (d.symbols.map (·.name)).Nodup) {X : SymbolId} {r : Rule}
    (hr : r ∈ d.rules X) {ts : List (Derivation String NamedRule)}
    (hparts : ts.map Derivation.symbol = r.expansion.parts.map d.symbolName)
    (hts : ∀ t ∈ ts, t.Valid (Document.ofDraft d).allProductions) :
    ∃ row : NamedRule, row.edit.isSome = r.edit.isSome ∧
      (Derivation.node (d.symbolName X) row ts).Valid (Document.ofDraft d).allProductions := by
  obtain ⟨row, hrow, halike⟩ := exists_hasRow_of_rule hnames hr
  refine ⟨row, halike.edit.trans (d.isSome_edit_namedRule r), .node hrow ?_ hts⟩
  rw [hparts, ← parts_namedRule, ← halike.rhs]
  rfl

/-- An insertion stands beside a part that its origin does not close to insertion. -/
theorem exists_side_of_mem_insertionsOf {best : Candidates} {includeTrees : Bool} {X : SymbolId}
    {parent r : Rule} (h : r ∈ insertionsOf best includeTrees X parent) (d : Draft) :
    ∃ (side : Side) (omitted kept : SymbolId) (c : Candidate),
      best.lookup omitted = some c ∧ r = insertionRule parent kept side c includeTrees ∧
        (d.namedRule parent).rhs =
          .symbols (side.around (d.symbolName omitted) (d.symbolName kept)) ∧
        side.omitted ∉ (d.namedRule parent).noInsertionIndexes := by
  obtain ⟨first, second, cost, ⟨closed, closed'⟩, c, hx, hsides⟩ := mem_insertionsOf_cases h
  have hrhs : (d.namedRule parent).rhs =
      .symbols [d.symbolName first, d.symbolName second] := by
    simp [namedRule, namedExpansion, hx]
  have hindexes : (d.namedRule parent).noInsertionIndexes =
      (Excluded.mk closed closed').indexes.map UInt64.ofNat := by
    simp [namedRule, namedExpansion, hx]
  rcases hsides with ⟨hopen, hc, heq⟩ | ⟨hopen, hc, heq⟩
  · refine ⟨.before, first, second, c, hc, heq, hrhs, ?_⟩
    obtain rfl : closed = false := hopen
    rw [hindexes]
    cases closed' <;> decide
  · refine ⟨.after, second, first, c, hc, heq, hrhs, ?_⟩
    obtain rfl : closed' = false := hopen
    rw [hindexes]
    cases closed <;> decide

/-- The draft with all its edits, every insertion with its provenance. -/
def edited (d : Draft) : Draft := (d.withEdits true).2

@[simp] theorem symbolName_edited (d : Draft) (X : SymbolId) :
    d.edited.symbolName X = d.symbolName X :=
  (d.addsRules_withEdits true).symbolName_eq X

/-! ### Restored derivations -/

section Edited

variable {X : SymbolId} {r : Rule} (hd : d.Searchable) (hshaped : d.Shaped) (hu : d.Used)
include hd hshaped hu

/-- The rules from before the edits stand in the document. -/
theorem has_productions_edited (hr : r ∈ d.rules X) (hplain : r.edit = none) :
    (Document.ofDraft d.edited).productions.has (d.symbolName X) (d.edited.namedRule r) := by
  have hsearchable : d.edited.Searchable :=
    ⟨hd.consistent.withEdits true hu, hd.priced.withEdits true⟩
  have hmem : r ∈ d.edited.rules X := (d.addsRules_withEdits true).extends.rules X hr
  rw [← symbolName_edited]
  apply Document.productions_has_iff.mpr
  constructor
  · exact hsearchable.hasRow_namedRule (hshaped.withEdits true) hmem hplain
  · simp [namedRule, hplain]

variable (hplain : ∀ X, ∀ r ∈ d.rules X, r.edit = none)
include hplain

theorem expands_productions_edited (hX : d.Expands X) :
    (Document.ofDraft d.edited).productions.Expands (d.symbolName X) := by
  apply Productions.Expands.induction _ hX
  intro Y q hq hparts
  apply Productions.expands_iff.mpr
  refine ⟨_, has_productions_edited hd hshaped hu hq (hplain Y q hq), ?_⟩
  intro name hname
  have hname : name ∈ (d.edited.namedRule q).rhs.parts := hname
  rw [parts_namedRule] at hname
  obtain ⟨Z, hZ, rfl⟩ := List.mem_map.mp hname
  rw [symbolName_edited]
  exact hparts Z hZ

/-- A rule is applied in some derivation, whatever it reads. -/
theorem exists_valid_edited (hr : r ∈ d.rules X) : ∃ us, Derivation.Valid
    (Document.ofDraft d.edited).productions
    (.node (d.symbolName X) (d.edited.namedRule r) us) := by
  apply Productions.expands_of_rule (has_productions_edited hd hshaped hu hr (hplain X r hr))
  intro name hname
  have hname : name ∈ (d.edited.namedRule r).rhs.parts := hname
  rw [parts_namedRule] at hname
  obtain ⟨Y, hY, rfl⟩ := List.mem_map.mp hname
  rw [symbolName_edited]
  exact expands_productions_edited hd hshaped hu hplain
    ((hu.applies hd.consistent hr).expands.2 Y hY)

/-- What supplies a symbol is expanded by rows that are no edits. -/
theorem exists_follows {t : Derivation SymbolId Rule} (ht : t.Valid d.supplying) :
    ∃ u, u.Valid (Document.ofDraft d.edited).productions ∧
      u.symbol = d.symbolName t.symbol ∧ Document.Follows (d.provenance t) u := by
  induction ht with
  | @node X r ts hrule hparts _ ih =>
    obtain ⟨hr, hedit, hcan⟩ := hrule
    rw [provenance_node]
    by_cases hlexical : r.expansion.isLexical = true
    · have hnone : ts.map Derivation.symbol = [] := hparts.trans (needed_of_lexical hlexical)
      obtain ⟨us, hus⟩ := exists_valid_edited hd hshaped hu hplain hr
      obtain ⟨hrhs, hpriced⟩ := lexical_of_canSupply hcan hlexical d.edited
      rw [List.map_eq_nil_iff.mp hnone]
      exact ⟨_, hus, rfl, .leaf hrhs hpriced⟩
    · obtain ⟨us, hus⟩ := exists_forall₂ ih
      obtain ⟨hrhs, hallowed⟩ := symbols_of_canSupply hcan hlexical d.edited
      have hneeded : r.expansion.needed.map d.edited.symbolName =
          ts.map fun t => d.symbolName t.symbol := by
        rw [show r.expansion.needed = ts.map Derivation.symbol from hparts.symm, List.map_map]
        exact List.map_congr_left fun t _ => symbolName_edited d t.symbol
      have hsymbols : us.map Derivation.symbol = ts.map fun t => d.symbolName t.symbol :=
        map_eq_of_forall₂ (hus.imp fun _ _ h => h.2.1)
      have hfollows : List.Forall₂ Document.Follows (ts.map d.provenance) us :=
        List.forall₂_map_left_iff.mpr (hus.imp fun _ _ h => h.2.2)
      refine ⟨.node (d.symbolName X) (d.edited.namedRule r) us, .node ?_ ?_ ?_, rfl, ?_⟩
      · exact has_productions_edited hd hshaped hu hr hedit
      · rw [hsymbols, ← hneeded]
        exact (congrArg NamedRhs.parts hrhs).symm
      · exact forall_of_forall₂ (hus.imp fun _ _ h => h.1)
      · rw [not_isLexical_iff.mp hlexical]
        apply Document.Follows.node _ hallowed hfollows
        rw [hrhs, hneeded, List.map_map]
        congr 1
        exact List.map_congr_left fun t _ => (d.symbol_provenance t).symm

variable {ts : List (Derivation String NamedRule)}
  (hparts : ts.map Derivation.symbol = (d.edited.namedRule r).rhs.parts)
  (hts : ∀ t ∈ ts, ∃ u, Document.Restores t u ∧
    u.Valid (Document.ofDraft d.edited).productions)
include hparts hts

/-- A row that is no edit stays, over what its parts are restored to. -/
theorem exists_restored_kept (hr : r ∈ d.rules X) :
    ∃ u, Document.Restores (.node (d.symbolName X) (d.edited.namedRule r) ts) u ∧
      u.Valid (Document.ofDraft d.edited).productions := by
  have hunedited := hplain X r hr
  obtain ⟨us, hus⟩ := exists_forall₂ hts
  have hsymbols : us.map Derivation.symbol = ts.map Derivation.symbol :=
    map_eq_of_forall₂ (hus.imp fun _ _ h => h.1.symbol_eq)
  refine ⟨.node (d.symbolName X) (d.edited.namedRule r) us, .kept ?_ ?_, .node ?_ ?_ ?_⟩
  · simp [namedRule, hunedited]
  · exact hus.imp fun _ _ h => h.1
  · exact has_productions_edited hd hshaped hu hr hunedited
  · exact hsymbols.trans hparts
  · exact forall_of_forall₂ (hus.imp fun _ _ h => h.2)

variable {parent : Rule} (hparent : parent ∈ d.rules X)
include hparent

/-- Where a part was supplied, its origin reads both parts. -/
theorem exists_restored_insertion (hmem : r ∈ insertionsOf d.candidates true X parent) :
    ∃ u, Document.Restores (.node (d.symbolName X) (d.edited.namedRule r) ts) u ∧
      u.Valid (Document.ofDraft d.edited).productions := by
  obtain ⟨side, omitted, kept, c, hc, rfl, hrhs, hallowed⟩ :=
    exists_side_of_mem_insertionsOf hmem d.edited
  rw [symbolName_edited, symbolName_edited] at hrhs
  have hunedited := hplain X parent hparent
  -- the row reads the part that is kept
  have hkept : ts.map Derivation.symbol = [d.edited.symbolName kept] := hparts
  rw [symbolName_edited] at hkept
  obtain ⟨t, rfl, hsymbol⟩ := List.map_eq_singleton_iff.mp hkept
  obtain ⟨u, hrestores, hvalid⟩ := hts t (by simp)
  -- and the other part is supplied by a derivation that the provenance shows
  obtain ⟨s, hs, hsupplied, hsupply⟩ := (d.sourced_candidates.lookup hc).exists_supply
  have htree : c.tree = d.provenance s := (backs_of_supply hs hsupply).tree
  obtain ⟨v, hv, hvsymbol, hfollows⟩ := exists_follows hd hshaped hu hplain hs
  have hroot : c.tree.symbol = d.symbolName omitted := by
    rw [htree, symbol_provenance, hsupplied]
  refine ⟨.node (d.symbolName X) (d.edited.namedRule parent) (side.around v u), ?_, .node ?_ ?_ ?_⟩
  · have hedit : (d.edited.namedRule (insertionRule parent kept side c true)).edit =
        some (.insertion ⟨c.cost, side, c.text,
          c.semantic.map d.edited.vocabulary.namedNodes, some c.tree⟩) := rfl
    apply Document.Restores.inserted hedit rfl _ hallowed (htree ▸ hfollows) hrestores
    constructor
    · simp [namedRule, hunedited]
    · rw [hrhs, hroot, hsymbol]
    · rfl
    · rfl
  · exact has_productions_edited hd hshaped hu hparent hunedited
  · rw [Side.map_around, hrestores.symbol_eq, hsymbol, hvsymbol, hsupplied]
    exact (congrArg NamedRhs.parts hrhs).symm
  · intro w hw
    rcases Side.mem_around_iff.mp hw with rfl | rfl
    · exact hv
    · exact hvalid

/-- An exchange goes back to the order of its origin. -/
theorem exists_restored_exchange (hmem : r ∈ (transpositionOf? parent).toList) :
    ∃ u, Document.Restores (.node (d.symbolName X) (d.edited.namedRule r) ts) u ∧
      u.Valid (Document.ofDraft d.edited).productions := by
  have hunedited := hplain X parent hparent
  obtain ⟨first, second, cost, excluded, hx, rfl⟩ := mem_transpositionOf_cases hmem
  have hrhs : (d.edited.namedRule parent).rhs =
      .symbols [d.symbolName first, d.symbolName second] := by
    simp [namedRule, namedExpansion, hx]
  have hswapped : ts.map Derivation.symbol =
      [d.edited.symbolName second, d.edited.symbolName first] := hparts
  rw [symbolName_edited, symbolName_edited] at hswapped
  obtain ⟨t, ts', rfl, ht, hrest⟩ := List.map_eq_cons_iff.mp hswapped
  obtain ⟨t', rfl, ht'⟩ := List.map_eq_singleton_iff.mp hrest
  obtain ⟨u, hrestores, hvalid⟩ := hts t (by simp)
  obtain ⟨u', hrestores', hvalid'⟩ := hts t' (by simp)
  refine ⟨.node (d.symbolName X) (d.edited.namedRule parent) [u', u], ?_, .node ?_ ?_ ?_⟩
  · apply Document.Restores.exchanged rfl _ _ hrestores hrestores'
    · constructor
      · simp [namedRule, hunedited]
      · rw [hrhs, ht, ht']
      · rfl
      · rfl
    · simp [namedRule, namedExpansion, hx]
  · exact has_productions_edited hd hshaped hu hparent hunedited
  · rw [List.map_cons, List.map_singleton, hrestores.symbol_eq, hrestores'.symbol_eq, ht, ht']
    exact (congrArg NamedRhs.parts hrhs).symm
  · intro w hw
    rcases List.mem_pair.mp hw with rfl | rfl
    · exact hvalid'
    · exact hvalid

omit hparts hts hparent in
/-- A derivation by all rows of the document is restored to one without edits. -/
theorem exists_restored {t : Derivation String NamedRule}
    (ht : t.Valid (Document.ofDraft d.edited).allProductions) :
    ∃ u, Document.Restores t u ∧ u.Valid (Document.ofDraft d.edited).productions := by
  have hnames := (hd.consistent.withEdits true hu).names
  induction ht with
  | @node name row ts hrow hparts _ ih =>
    obtain ⟨X, rfl, r, hr, rfl⟩ := exists_rule_of_hasRow hnames hrow
    have hname : (d.withEdits true).2.symbolName X = d.symbolName X := symbolName_edited d X
    rw [hname]
    rcases rule_withEdits_cases true hr with hold | ⟨parent, hparent, -, hmem⟩
    · exact exists_restored_kept hd hshaped hu hplain hparts ih hold
    · rcases List.mem_append.mp hmem with hmem | hmem
      · exact exists_restored_insertion hd hshaped hu hplain hparts ih hparent hmem
      · exact exists_restored_exchange hd hshaped hu hplain hparts ih hparent hmem

end Edited

/-! ### Finished grammars -/

theorem Sound.unedited_prepared (hd : d.Sound) (hstart : d.filled.Expands start) :
    ∀ X, ∀ r ∈ d.prepared.rules X, r.edit = none := by
  intro X r hr
  have htok := hd.tokenized_prepared hstart
  exact htok.unedited (fun _ _ h => h.elim) (hd.filled.trimmed hstart).unedited hr

theorem grammar_of_finish {o : Options} {c : Compilation}
    (h : (finish o).perform d = (.ok c, e)) : c.grammar = Document.ofDraft e := by
  obtain ⟨-, unused, hcomplete⟩ := exists_of_finish h
  have hgrammar := complete_grammar d.filled.trimmed o unused
  rw [hcomplete] at hgrammar
  exact hgrammar

end Draft

/-- Every derivation by the rows of a finished grammar, edits among them, is restored to one by rows
that are no edits, of the same symbol. This holds of all derivations from the start symbol. -/
theorem Registered.exists_restores {ws : Workspace} (h : Registered ws) {o : Options}
    (htrees : o.includeTrees = true) {c : Compilation} {e : Draft}
    (hfinish : (Draft.finish o).perform ws.draft = (.ok c, e)) {t : Derivation String NamedRule}
    (ht : t.Valid c.grammar.allProductions) :
    ∃ u, Document.Restores t u ∧ u.Valid c.grammar.productions ∧ u.symbol = t.symbol := by
  obtain ⟨hstart, unused, hcomplete⟩ := Draft.exists_of_finish hfinish
  have hsearchable := (Reached.prepared h.built hstart).searchable
  have hshaped : ws.draft.prepared.Shaped :=
    ((Draft.shaped_filled h.built.shaped).trimmed hstart).tokenize
  have hconsistent := h.built.consistent.filled.trimmed hstart
  have hused : ws.draft.prepared.Used :=
    (Draft.used_trimmed hstart).split hconsistent.tokenized hconsistent
  have hgrammar : c.grammar = Document.ofDraft ws.draft.prepared.edited := by
    have heq := Draft.complete_grammar ws.draft.filled.trimmed o unused
    rw [Draft.complete_draft, htrees, hcomplete] at heq
    exact heq
  rw [hgrammar] at ht ⊢
  obtain ⟨u, hrestores, hvalid⟩ :=
    Draft.exists_restored hsearchable hshaped hused (h.sound.unedited_prepared hstart) ht
  exact ⟨u, hrestores, hvalid, hrestores.symbol_eq⟩

/-- A greeting of two words, the first of which may be left out, before another with which it may be
exchanged. -/
def farewells : Workspace :=
  let hello := ((Registration.newSymbol ["hello"]).perform {}).2
  let you := ((Registration.newSymbol ["you"]).perform hello).2
  let pair := ((Registration.newSymbol ["pair"]).perform you).2
  let bye := ((Registration.newSymbol ["bye"]).perform pair).2
  let one := ((Registration.addRule ⟨1⟩
    { rhs := .terminal "hello" .verbatim, insertionCost := some 0.5 }).perform bye).2
  let two := ((Registration.addRule ⟨2⟩ (.terminal "you" .verbatim)).perform one).2
  let three := ((Registration.addRule ⟨3⟩ (.binary ⟨1⟩ ⟨2⟩)).perform two).2
  let four := ((Registration.addRule ⟨4⟩ (.terminal "bye" .verbatim)).perform three).2
  ((Registration.addRule Draft.start
    { rhs := .symbols [⟨3⟩, ⟨4⟩], transpositionCost := some 1.0 }).perform four).2

theorem registered_farewells : Registered farewells :=
  have hello := Registered.init.call (.newSymbol ["hello"])
  have you := hello.call (.newSymbol ["you"])
  have pair := you.call (.newSymbol ["pair"])
  have bye := pair.call (.newSymbol ["bye"])
  have one := bye.call (.addRule ⟨1⟩ _)
  have two := one.call (.addRule ⟨2⟩ _)
  have three := two.call (.addRule ⟨3⟩ _)
  have four := three.call (.addRule ⟨4⟩ _)
  four.call (.addRule Draft.start _)

theorem finished_farewells : ∃ (c : Compilation) (e : Draft),
    (Draft.finish { includeTrees := true }).perform farewells.draft = (.ok c, e) ∧
      (e.symbols.map (·.name)).Nodup ∧
      (∃ r ∈ e.rules ⟨2⟩, r.edit.isSome = false ∧ r.expansion.parts = []) ∧
      (∃ r ∈ e.rules ⟨4⟩, r.edit.isSome = false ∧ r.expansion.parts = []) ∧
      (∃ r ∈ e.rules ⟨3⟩, r.edit.isSome = true ∧ r.expansion.parts = [⟨2⟩]) ∧
      ∃ r ∈ e.rules Draft.start, r.edit.isSome = true ∧ r.expansion.parts = [⟨4⟩, ⟨3⟩] := by
  have hfacts : ∀ f, (Draft.finish { includeTrees := true }).perform farewells.draft = f →
      f.1.isOk = true ∧ (f.2.symbols.map (·.name)).Nodup ∧
        (∃ r ∈ f.2.rules ⟨2⟩, r.edit.isSome = false ∧ r.expansion.parts = []) ∧
        (∃ r ∈ f.2.rules ⟨4⟩, r.edit.isSome = false ∧ r.expansion.parts = []) ∧
        (∃ r ∈ f.2.rules ⟨3⟩, r.edit.isSome = true ∧ r.expansion.parts = [⟨2⟩]) ∧
        ∃ r ∈ f.2.rules Draft.start, r.edit.isSome = true ∧ r.expansion.parts = [⟨4⟩, ⟨3⟩] := by
    rintro _ rfl
    decide +kernel
  cases hfinish : (Draft.finish { includeTrees := true }).perform farewells.draft with
  | mk outcome e =>
    obtain ⟨hok, hrest⟩ := hfacts _ hfinish
    cases outcome with
    | error err => simp [Except.isOk, Except.toBool] at hok
    | ok c => exact ⟨c, e, rfl, hrest⟩

/-- An exchange over a pair with a part left out is restored to rows that are no edits. -/
theorem restores_farewells : ∃ (c : Compilation) (e : Draft) (t u : Derivation String NamedRule),
    (Draft.finish { includeTrees := true }).perform farewells.draft = (.ok c, e) ∧
      t.Valid c.grammar.allProductions ∧ t.symbol = c.grammar.startSymbol ∧
      t.applications.countP (·.2.edit.isSome) = 2 ∧
      Document.Restores t u ∧ u.Valid c.grammar.productions := by
  obtain ⟨c, e, hfinish, hnames, ⟨ryou, hryou, hyouKept, hyouParts⟩,
    ⟨rbye, hrbye, hbyeKept, hbyeParts⟩, ⟨rpair, hrpair, hpairEdit, hpairParts⟩,
    rstart, hrstart, hstartEdit, hstartParts⟩ := finished_farewells
  have hgrammar := Draft.grammar_of_finish hfinish
  -- the two words
  have hyouTexts : ([] : List (Derivation String NamedRule)).map Derivation.symbol =
      ryou.expansion.parts.map e.symbolName := by
    rw [hyouParts]
    rfl
  obtain ⟨you, hyou, hyouValid⟩ := Draft.exists_applied hnames hryou hyouTexts (by simp)
  have hbyeTexts : ([] : List (Derivation String NamedRule)).map Derivation.symbol =
      rbye.expansion.parts.map e.symbolName := by
    rw [hbyeParts]
    rfl
  obtain ⟨bye, hbye, hbyeValid⟩ := Draft.exists_applied hnames hrbye hbyeTexts (by simp)
  -- the pair reads its second word alone
  let second : Derivation String NamedRule := .node (e.symbolName ⟨2⟩) you []
  have hsecond : [second].map Derivation.symbol = rpair.expansion.parts.map e.symbolName := by
    rw [hpairParts]
    rfl
  obtain ⟨pair, hpair, hpairValid⟩ :=
    Draft.exists_applied hnames hrpair hsecond (by simpa using hyouValid)
  -- and comes after the greeting that should follow it
  let swapped : List (Derivation String NamedRule) :=
    [.node (e.symbolName ⟨4⟩) bye [], .node (e.symbolName ⟨3⟩) pair [second]]
  have hswapped : swapped.map Derivation.symbol = rstart.expansion.parts.map e.symbolName := by
    rw [hstartParts]
    rfl
  obtain ⟨root, hroot, hvalid⟩ :=
    Draft.exists_applied hnames hrstart hswapped (by simpa [swapped] using ⟨hbyeValid, hpairValid⟩)
  rw [← hgrammar] at hvalid
  obtain ⟨u, hrestores, hrestored, -⟩ := registered_farewells.exists_restores rfl hfinish hvalid
  refine ⟨c, e, _, u, hfinish, hvalid, ?_, ?_, hrestores, hrestored⟩
  · rw [hgrammar]
    rfl
  · simp [swapped, second, hyou, hbye, hpair, hroot, hyouKept, hbyeKept, hpairEdit, hstartEdit]

end QueryGrammar
