import QueryGrammar.Proofs.Draft.Gains
import QueryGrammar.Proofs.Finish.WellFormed
/-!
What a draft says by name. Its rows are its rules with names in the place of numbers, without an
order among them, and what derivations use can be told from the rows alone.
-/
namespace QueryGrammar

namespace NamedRule

/-- All costs that stand in a row. -/
def costs (row : NamedRule) : List Float :=
  row.transpositionCost.toList ++ row.insertionCost.toList ++
    (row.edit.map fun edit => match edit with
      | .insertion i => i.cost
      | .transposition cost => cost).toList

/-- No cost in the row has a minus sign. -/
def Unsigned (row : NamedRule) : Prop := ∀ c ∈ row.costs, Cost.Unsigned c

end NamedRule

/-- Rows under the names of their symbols. -/
abbrev Rows := String → NamedRule → Prop

/-- The rows as rules of a grammar. -/
def Rows.productions (R : Rows) : Productions String NamedRule Token NamedAttachment where
  has := R
  parts row := row.rhs.parts
  tokens row := row.rhs.tokens
  attached row := row.semantic.toList

namespace Draft

/-- The row is that of a rule of the symbol with this name. -/
def HasRow (d : Draft) : Rows := fun name row =>
  ∃ X, ∃ r ∈ d.rules X, d.symbolName X = name ∧ d.namedRule r = row

theorem costs_namedRule (d : Draft) (r : Rule) : (d.namedRule r).costs = r.costs := by
  have hedit : (d.namedRule r).edit.map (fun edit => match edit with
      | .insertion i => i.cost
      | .transposition cost => cost) = r.edit.map Edit.cost := by
    cases he : r.edit with
    | none => simp [namedRule, he]
    | some edit => cases edit <;> simp [namedRule, he, Vocabulary.namedEdit, Edit.cost]
  rw [NamedRule.costs, hedit, Rule.costs]
  cases hx : r.expansion <;> simp [namedRule, namedExpansion, hx, Expansion.costs]

theorem unsigned_iff {d : Draft} : d.Unsigned ↔ ∀ name row, d.HasRow name row → row.Unsigned := by
  constructor
  · rintro h _ _ ⟨X, r, hr, -, rfl⟩ c hc
    rw [costs_namedRule] at hc
    exact h X r hr c hc
  · intro h X r hr c hc
    rw [← d.costs_namedRule] at hc
    exact h _ _ ⟨X, r, hr, rfl, rfl⟩ c hc

/-- What is live in `d` has the same name in `e`. -/
structure SameNames (d e : Draft) : Prop where
  symbols : ∀ X ∈ d.liveSymbols, e.symbolName X = d.symbolName X
  vocabulary : e.vocabulary = d.vocabulary
  categories : ∀ c, e.entityCategoryName c = d.entityCategoryName c

variable {d e : Draft}

theorem SameNames.namedRule_eq (h : SameNames d e) {r : Rule}
    (hr : ∀ Y ∈ r.expansion.parts, Y ∈ d.liveSymbols) : e.namedRule r = d.namedRule r := by
  have hparts : ∀ Y ∈ r.expansion.parts, e.symbolName Y = d.symbolName Y :=
    fun Y hY => h.symbols Y (hr Y hY)
  have hexpansion : e.namedExpansion r.expansion = d.namedExpansion r.expansion := by
    cases hx : r.expansion with
    | unary part noInsertion =>
      simp [namedExpansion, hparts part (by simp [hx, Expansion.parts])]
    | binary first second cost excluded =>
      simp [namedExpansion, hparts first (by simp [hx, Expansion.parts]),
        hparts second (by simp [hx, Expansion.parts])]
    | terminal term text => rfl
    | sequence first second text =>
      have hmap : (first :: second.toList).map e.symbolName =
          (first :: second.toList).map d.symbolName :=
        List.map_congr_left fun Y hY => hparts Y (by simpa [hx, Expansion.parts] using hY)
      simp only [namedExpansion, hmap]
    | placeholder category => simp [namedExpansion, h.categories]
  simp only [namedRule, hexpansion, h.vocabulary]

theorem Gains.sameNames {added : SymbolId → Rule → Prop} (h : Gains added d e) :
    SameNames d e where
  symbols X _ := h.names X
  vocabulary := h.vocabulary
  categories c := by rw [entityCategoryName, entityCategoryName, h.entityCategories]

theorem mem_parts_namedRule {r : Rule} {name : String} :
    name ∈ (d.namedRule r).rhs.parts ↔ ∃ Y ∈ r.expansion.parts, d.symbolName Y = name := by
  rw [parts_namedRule, List.mem_map]

/-! ### Derivations by name -/

section Derivations

variable (hd : d.Consistent)
include hd

theorem Consistent.exists_of_hasRow {X : SymbolId} (hX : X ∈ d.liveSymbols) {row : NamedRule}
    (h : d.HasRow (d.symbolName X) row) : ∃ r ∈ d.rules X, d.namedRule r = row := by
  obtain ⟨Y, r, hr, hname, hrow⟩ := h
  obtain rfl := symbolName_inj hd.names (live_of_mem_rules hr) hX hname
  exact ⟨r, hr, hrow⟩

theorem Consistent.expands_rows_iff {X : SymbolId} (hX : X ∈ d.liveSymbols) :
    d.HasRow.productions.Expands (d.symbolName X) ↔ d.Expands X := by
  constructor
  · intro h
    refine h.induction (P := fun name => ∀ Y ∈ d.liveSymbols, d.symbolName Y = name → d.Expands Y)
      (fun name row hrow ih Y hY hname => ?_) X hX rfl
    subst hname
    obtain ⟨r, hr, rfl⟩ := hd.exists_of_hasRow hY hrow
    refine Productions.expands_iff.mpr ⟨r, hr, fun Z hZ => ?_⟩
    refine ih (d.symbolName Z) ?_ Z ((hd.rules Y r hr).parts Z hZ) rfl
    exact mem_parts_namedRule.mpr ⟨Z, hZ, rfl⟩
  · intro h
    refine h.induction (P := fun Y => d.HasRow.productions.Expands (d.symbolName Y))
      fun Y r hr ih => ?_
    refine Productions.expands_iff.mpr ⟨d.namedRule r, ⟨Y, r, hr, rfl, rfl⟩, fun name hname => ?_⟩
    obtain ⟨Z, hZ, rfl⟩ := mem_parts_namedRule.mp hname
    exact ih Z hZ

theorem Consistent.occurs_rows_iff (hstart : d.Expands start) {X : SymbolId}
    (hX : X ∈ d.liveSymbols) :
    d.HasRow.productions.Occurs (d.symbolName start) (d.symbolName X) ↔ d.Occurs X := by
  constructor
  · intro h
    refine h.induction (P := fun name => ∀ Y ∈ d.liveSymbols, d.symbolName Y = name → d.Occurs Y)
      (fun Y hY hname => ?_) (fun name row ih hrow hparts part hpart Z hZ hname => ?_) X hX rfl
    · rw [symbolName_inj hd.names hY hd.startLive hname]
      exact Productions.occurs_root hstart
    · obtain ⟨Y, r, hr, rfl, rfl⟩ := hrow
      have hlive := (hd.rules Y r hr).parts
      have happlies : d.Applies Y r := by
        refine (ih Y (live_of_mem_rules hr) rfl).applies hr fun W hW => ?_
        refine (hd.expands_rows_iff (hlive W hW)).mp (hparts _ ?_)
        exact mem_parts_namedRule.mpr ⟨W, hW, rfl⟩
      obtain ⟨W, hW, heq⟩ := mem_parts_namedRule.mp hpart
      rw [symbolName_inj hd.names hZ (hlive W hW) (hname.trans heq.symm)]
      exact happlies.occurs_part hW
  · intro h
    refine h.induction (P := fun Y => d.HasRow.productions.Occurs (d.symbolName start)
      (d.symbolName Y)) ?_ fun Y r ih hr hparts Z hZ => ?_
    · exact Productions.occurs_root ((hd.expands_rows_iff hd.startLive).mpr hstart)
    · refine (ih.applies (r := d.namedRule r) ⟨Y, r, hr, rfl, rfl⟩ fun name hname => ?_).occurs_part
        (mem_parts_namedRule.mpr ⟨Z, hZ, rfl⟩)
      obtain ⟨W, hW, rfl⟩ := mem_parts_namedRule.mp hname
      exact (hd.expands_rows_iff ((hd.rules Y r hr).parts W hW)).mpr (hparts W hW)

/-- The rules in use are those whose rows are. -/
theorem Consistent.applies_rows_iff (hstart : d.Expands start) {name : String} {row : NamedRule} :
    d.HasRow.productions.Applies (d.symbolName start) name row ↔
      ∃ X r, d.Applies X r ∧ d.symbolName X = name ∧ d.namedRule r = row := by
  constructor
  · intro h
    obtain ⟨⟨X, r, hr, rfl, rfl⟩, hparts⟩ := h.expands
    refine ⟨X, r, ?_, rfl, rfl⟩
    refine ((hd.occurs_rows_iff hstart (live_of_mem_rules hr)).mp ⟨_, h⟩).applies hr fun Y hY => ?_
    refine (hd.expands_rows_iff ((hd.rules X r hr).parts Y hY)).mp (hparts _ ?_)
    exact mem_parts_namedRule.mpr ⟨Y, hY, rfl⟩
  · rintro ⟨X, r, h, rfl, rfl⟩
    obtain ⟨hr, hparts⟩ := h.expands
    refine ((hd.occurs_rows_iff hstart (live_of_mem_rules hr)).mpr ⟨r, h⟩).applies
      ⟨X, r, hr, rfl, rfl⟩ fun name hname => ?_
    obtain ⟨Y, hY, rfl⟩ := mem_parts_namedRule.mp hname
    exact (hd.expands_rows_iff ((hd.rules X r hr).parts Y hY)).mpr (hparts Y hY)

end Derivations

end Draft

end QueryGrammar
