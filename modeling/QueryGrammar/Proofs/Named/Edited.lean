import QueryGrammar.Proofs.Named.Rows
/-!
The rows of a draft once its edits are added. An exchange can be told from the row it comes from; an
insertion also depends on how the search supplies the part that is left out.
-/
namespace QueryGrammar

/-- The row that reads the parts in the other order. -/
def NamedRule.exchanged? (row : NamedRule) : Option NamedRule :=
  match row.rhs, row.transpositionCost with
  | .symbols [first, second], some cost =>
    some
      { row with
        rhs := .symbols [second, first]
        insertionCost := none
        transpositionCost := none
        noInsertionIndexes := row.noInsertionIndexes.reverse.map (1 - ·)
        edit := some (.transposition cost) }
  | _, _ => none

namespace Draft

variable {d e : Draft} {includeTrees : Bool}

/-! ### Costs of what is supplied -/

theorem cost_of_leafCandidate {v : Vocabulary} {symbol : String} {attachment : Option Attachment}
    {cost : Float} {text : List Segment} {c : Candidate}
    (h : leafCandidate v symbol attachment cost text = .ok c) : c.cost = cost := by
  obtain ⟨_, -, h⟩ := Outcome.ok_of_bind h
  cases h
  rfl

theorem cost_of_composedCandidate {v : Vocabulary} {symbol : String}
    {attachment : Option Attachment} {parts : List Candidate} {c : Candidate}
    (h : composedCandidate v symbol attachment parts = .ok c) :
    c.cost = parts.foldl (fun sum p => sum + p.cost) (-0.0) := by
  obtain ⟨_, -, h⟩ := Outcome.ok_of_bind h
  obtain ⟨_, -, h⟩ := Outcome.ok_of_bind h
  cases h
  rfl

theorem Supplied.unsigned (hd : d.Unsigned) {X : SymbolId} {c : Candidate}
    (h : d.Supplied X c) : Cost.Unsigned c.cost := by
  induction h with
  | lexical hrule _ _ hcost hmade =>
    rw [cost_of_leafCandidate hmade]
    refine hd _ _ hrule _ ?_
    simp [Rule.costs, hcost]
  | unary _ _ _ _ hmade ih =>
    rw [cost_of_composedCandidate hmade]
    exact ih.negativeZero_add
  | binary _ _ _ _ _ _ hmade ihleft ihright =>
    rw [cost_of_composedCandidate hmade]
    exact ihleft.negativeZero_add.add ihright

theorem unsigned_of_mem_editsOf (hd : d.Unsigned) {X : SymbolId} {parent r : Rule}
    (hparent : parent ∈ d.rules X) (hr : r ∈ editsOf d.candidates includeTrees X parent) :
    r.Unsigned := by
  obtain ⟨first, second, cost, excluded, hx, ⟨kept, -, omitted, position, c, hc, rfl⟩ |
    ⟨price, hprice, rfl⟩⟩ := mem_editsOf_cases hr
  · have hcost := (d.sourced_candidates.lookup hc).unsigned hd
    simpa [Rule.Unsigned, Rule.costs, Expansion.costs, insertionRule, Edit.cost] using hcost
  · have hcost := hd X parent hparent price (by simp [Rule.costs, Expansion.costs, hx, hprice])
    simpa [Rule.Unsigned, Rule.costs, Expansion.costs, Edit.cost] using hcost

/-! ### Edits that are added -/

theorem gains_pushAll {id : SymbolId} (hid : id ∈ d.liveSymbols) {rules : List Rule}
    (hd : d.Unsigned) (hrules : ∀ r ∈ rules, r.Unsigned) :
    Gains (fun X r => X = id ∧ r ∈ rules) d (pushAll id rules d).2 := by
  induction rules generalizing d with
  | nil => exact (Gains.refl d).congr (by simp)
  | cons rule rules ih =>
    have hrule := hrules rule (by simp)
    have hone := gains_appendRule hid hd hrule
    have hunsigned := hone.unsigned hd fun X r hr => hr.2 ▸ hrule
    have hall := ih ((hone.live id).mpr hid) hunsigned fun r hr => hrules r (by simp [hr])
    refine (hone.trans hall).congr fun X r => ?_
    rw [List.mem_cons, and_or_left]

section Search

variable {best : Candidates} {id : SymbolId} {state : EditCounts × Draft}

theorem gains_addEdits {parent : Rule} (hid : id ∈ state.2.liveSymbols) (hd : state.2.Unsigned)
    (hedits : ∀ r ∈ editsOf best includeTrees id parent, r.Unsigned) :
    Gains (fun X r => X = id ∧ r ∈ editsOf best includeTrees id parent) state.2
      (addEdits best includeTrees id state parent).2 := by
  have hinsertions := fun r hr => hedits r (List.mem_append_left _ hr)
  have hexchanged := fun r hr => hedits r (List.mem_append_right _ hr)
  have hfirst := gains_pushAll hid hd hinsertions
  have hunsigned := hfirst.unsigned hd fun X r hr => hinsertions r hr.2
  have hsecond := gains_pushAll ((hfirst.live id).mpr hid) hunsigned hexchanged
  refine (hfirst.trans hsecond).congr fun X r => ?_
  rw [editsOf, List.mem_append, and_or_left]

theorem gains_foldl_addEdits {parents : List Rule} (hid : id ∈ state.2.liveSymbols)
    (hd : state.2.Unsigned)
    (hedits : ∀ parent ∈ parents, ∀ r ∈ editsOf best includeTrees id parent, r.Unsigned) :
    Gains (fun X r => X = id ∧ ∃ parent ∈ parents, r ∈ editsOf best includeTrees id parent) state.2
      (parents.foldl (addEdits best includeTrees id) state).2 := by
  induction parents generalizing state with
  | nil => exact (Gains.refl _).congr (by simp)
  | cons parent parents ih =>
    have hone := gains_addEdits hid hd (hedits parent (by simp))
    have hunsigned := hone.unsigned hd fun X r hr => hedits parent (by simp) r hr.2
    have hall := ih ((hone.live id).mpr hid) hunsigned fun p hp => hedits p (by simp [hp])
    refine (hone.trans hall).congr fun X r => ?_
    simp only [List.mem_cons, exists_eq_or_imp, and_or_left]

end Search

/-- Every edit of every rule is there in the end. -/
theorem gains_withEdits (hd : d.Unsigned) (hplain : ∀ X, ∀ r ∈ d.rules X, r.edit = none)
    (includeTrees : Bool) :
    Gains (fun X r => ∃ parent ∈ d.rules X, r ∈ editsOf d.candidates includeTrees X parent) d
      (d.withEdits includeTrees).2 := by
  have hfold : ∀ (ids : List SymbolId) (P : SymbolId → Prop) (state : EditCounts × Draft),
      (∀ id ∈ ids, id ∈ d.liveSymbols) →
      Gains (fun X r => P X ∧ ∃ parent ∈ d.rules X,
        r ∈ editsOf d.candidates includeTrees X parent) d state.2 →
      Gains (fun X r => (P X ∨ X ∈ ids) ∧ ∃ parent ∈ d.rules X,
        r ∈ editsOf d.candidates includeTrees X parent) d
        (ids.foldl (addEditsOf d.candidates includeTrees) state).2 := by
    intro ids
    induction ids with
    | nil => exact fun P state _ h => h.congr (by simp)
    | cons id ids ih =>
      intro P state hids h
      have hunsigned : state.2.Unsigned := h.unsigned hd fun X r hr => by
        obtain ⟨-, parent, hparent, hmem⟩ := hr
        exact unsigned_of_mem_editsOf hd hparent hmem
      -- edits that are there already are no origin of others
      have hparents : ∀ parent, parent ∈ (state.2.rules id).filter (fun rule => !rule.isEdit) ↔
          parent ∈ d.rules id := by
        intro parent
        rw [List.mem_filter, h.rules]
        constructor
        · rintro ⟨hparent | ⟨-, origin, -, hmem⟩, hedit⟩
          · exact hparent
          · simp [isEdit_of_mem_editsOf hmem] at hedit
        · exact fun hparent => ⟨Or.inl hparent, by simp [Rule.isEdit, hplain id parent hparent]⟩
      have hone : Gains _ state.2 (addEditsOf d.candidates includeTrees state id).2 :=
        gains_foldl_addEdits ((h.live id).mpr (hids id (by simp))) hunsigned
          fun parent hparent r hr => unsigned_of_mem_editsOf hd ((hparents parent).mp hparent) hr
      have hboth : Gains (fun X r => (P X ∨ X = id) ∧
          ∃ parent ∈ d.rules X, r ∈ editsOf d.candidates includeTrees X parent) d
          (addEditsOf d.candidates includeTrees state id).2 := by
        refine (h.trans hone).congr fun X r => ?_
        simp only [hparents]
        constructor
        · rintro (⟨hP, hmem⟩ | ⟨rfl, hmem⟩)
          · exact ⟨Or.inl hP, hmem⟩
          · exact ⟨Or.inr rfl, hmem⟩
        · rintro ⟨hP | rfl, hmem⟩
          · exact Or.inl ⟨hP, hmem⟩
          · exact Or.inr ⟨rfl, hmem⟩
      refine (ih _ _ (fun other hother => hids other (by simp [hother])) hboth).congr fun X r => ?_
      rw [List.mem_cons, or_assoc]
  have hall := hfold d.liveSymbols (fun _ => False) ({ insertable := d.candidates.length }, d)
    (fun _ hid => hid) ((Gains.refl d).congr (by simp))
  refine hall.congr fun X r => ?_
  constructor
  · exact fun h => h.2
  · rintro ⟨parent, hparent, hmem⟩
    exact ⟨Or.inr (live_of_mem_rules hparent), parent, hparent, hmem⟩

/-! ### Rows of edits -/

/-- The rows that read a binary rule with one part supplied. -/
def InsertionRow (d : Draft) (includeTrees : Bool) : Rows := fun name row =>
  ∃ X, ∃ parent ∈ d.rules X, ∃ r ∈ insertionsOf d.candidates includeTrees X parent,
    d.symbolName X = name ∧ d.namedRule r = row

theorem swap_indexes (excluded : Excluded) : excluded.swap.indexes.map UInt64.ofNat =
    (excluded.indexes.map UInt64.ofNat).reverse.map (1 - ·) := by
  obtain ⟨first, second⟩ := excluded
  cases first <;> cases second <;> decide

theorem exchanged?_namedRule (d : Draft) (r : Rule) :
    (d.namedRule r).exchanged? = (transpositionOf? r).map d.namedRule := by
  cases hx : r.expansion with
  | binary first second cost excluded =>
    cases cost with
    | none => simp [NamedRule.exchanged?, transpositionOf?, namedRule, namedExpansion, hx]
    | some price =>
      simp [NamedRule.exchanged?, transpositionOf?, namedRule, namedExpansion, hx, swap_indexes,
        Vocabulary.namedEdit]
  | _ => simp [NamedRule.exchanged?, transpositionOf?, namedRule, namedExpansion, hx]

/-- The rows with all edits: those before, those exchanged, and those with a part supplied. -/
theorem hasRow_withEdits_iff (hd : d.Unsigned) (hplain : ∀ X, ∀ r ∈ d.rules X, r.edit = none)
    (hparts : ∀ X, ∀ r ∈ d.rules X, ∀ Y ∈ r.expansion.parts, Y ∈ d.liveSymbols) {name : String}
    {row : NamedRule} : (d.withEdits includeTrees).2.HasRow name row ↔
      d.HasRow name row ∨ (∃ old, d.HasRow name old ∧ old.exchanged? = some row) ∨
        d.InsertionRow includeTrees name row := by
  have hgains := gains_withEdits hd hplain includeTrees
  have hsame := hgains.sameNames
  have hedit : ∀ X, ∀ parent ∈ d.rules X, ∀ r ∈ editsOf d.candidates includeTrees X parent,
      (d.withEdits includeTrees).2.namedRule r = d.namedRule r := fun X parent hparent r hr =>
    hsame.namedRule_eq fun Y hY => hparts X parent hparent Y (parts_of_mem_editsOf hr hY)
  constructor
  · rintro ⟨X, r, hr, rfl, rfl⟩
    rw [hgains.names]
    rcases (hgains.rules X r).mp hr with hr | ⟨parent, hparent, hmem⟩
    · exact Or.inl ⟨X, r, hr, rfl, (hsame.namedRule_eq (hparts X r hr)).symm⟩
    · rw [hedit X parent hparent r hmem]
      rcases List.mem_append.mp hmem with hmem | hmem
      · exact Or.inr (Or.inr ⟨X, parent, hparent, r, hmem, rfl, rfl⟩)
      · refine Or.inr (Or.inl ⟨d.namedRule parent, ⟨X, parent, hparent, rfl, rfl⟩, ?_⟩)
        rw [exchanged?_namedRule, Option.mem_toList.mp hmem, Option.map_some]
  · rintro (⟨X, r, hr, rfl, rfl⟩ | ⟨_, ⟨X, parent, hparent, rfl, rfl⟩, hrow⟩ |
      ⟨X, parent, hparent, r, hmem, rfl, rfl⟩)
    · exact ⟨X, r, (hgains.rules X r).mpr (Or.inl hr), hgains.names X,
        hsame.namedRule_eq (hparts X r hr)⟩
    · rw [exchanged?_namedRule] at hrow
      obtain ⟨r, hr, rfl⟩ := Option.map_eq_some_iff.mp hrow
      have hmem : r ∈ editsOf d.candidates includeTrees X parent :=
        List.mem_append_right _ (Option.mem_toList.mpr hr)
      exact ⟨X, r, (hgains.rules X r).mpr (Or.inr ⟨parent, hparent, hmem⟩), hgains.names X,
        hedit X parent hparent r hmem⟩
    · have hmem := List.mem_append_left (transpositionOf? parent).toList hmem
      exact ⟨X, r, (hgains.rules X r).mpr (Or.inr ⟨parent, hparent, hmem⟩), hgains.names X,
        hedit X parent hparent r hmem⟩

end Draft

end QueryGrammar
