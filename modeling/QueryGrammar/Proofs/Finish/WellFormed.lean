import QueryGrammar.Proofs.Document.Shape
import QueryGrammar.Proofs.Finish.Used
/-!
The document of a draft of which everything is used is well formed exactly when no rule attaches a
semantic that has been pruned.
-/
namespace QueryGrammar

namespace Draft

variable {d : Draft}

/-! ### Rows of a draft -/

theorem hasRow_ofDraft_iff (hnames : (d.symbols.map (·.name)).Nodup) {name : String}
    {row : NamedRule} : (Document.ofDraft d).HasRow name row ↔
      ∃ X ∈ d.liveSymbols, d.symbolName X = name ∧
        row ∈ NamedRule.canonical ((d.rules X).map d.namedRule) := by
  constructor
  · rintro ⟨rows, hrows, hrow⟩
    obtain ⟨X, hX, hname, rfl⟩ := (find?_ruleSets_iff hnames).mp hrows
    exact ⟨X, hX, hname, hrow⟩
  · rintro ⟨X, hX, rfl, hrow⟩
    exact ⟨_, find?_ruleSets hnames hX, hrow⟩

/-- A row is that of a rule of its symbol. -/
theorem exists_rule_of_hasRow (hnames : (d.symbols.map (·.name)).Nodup) {name : String}
    {row : NamedRule} (h : (Document.ofDraft d).HasRow name row) :
    ∃ X, d.symbolName X = name ∧ ∃ r ∈ d.rules X, d.namedRule r = row := by
  obtain ⟨X, -, hname, hrow⟩ := (hasRow_ofDraft_iff hnames).mp h
  obtain ⟨r, hr, heq⟩ := List.mem_map.mp (NamedRule.mem_of_mem_canonical hrow)
  exact ⟨X, hname, r, hr, heq⟩

/-- A rule has a row that a derivation cannot tell from its own. -/
theorem exists_hasRow_of_rule (hnames : (d.symbols.map (·.name)).Nodup) {X : SymbolId} {r : Rule}
    (hr : r ∈ d.rules X) : ∃ row, (Document.ofDraft d).HasRow (d.symbolName X) row ∧
      row.Alike (d.namedRule r) := by
  obtain ⟨row, hrow, halike⟩ := NamedRule.exists_alike_of_mem
    (List.mem_map_of_mem (f := d.namedRule) hr)
  exact ⟨row, (hasRow_ofDraft_iff hnames).mpr ⟨X, live_of_mem_rules hr, rfl, hrow⟩, halike⟩

theorem parts_namedRule (d : Draft) (r : Rule) :
    (d.namedRule r).rhs.parts = r.expansion.parts.map d.symbolName := by
  cases hx : r.expansion <;>
    simp [namedRule, namedExpansion, hx, NamedRhs.parts, Expansion.parts]

theorem placeholder_of_namedRule {r : Rule} {category : String}
    (h : (d.namedRule r).rhs = .placeholder category) :
    ∃ c, r.expansion = .placeholder c ∧ d.entityCategoryName c = category := by
  cases hx : r.expansion <;> simp_all [namedRule, namedExpansion]

theorem insertion_of_namedRule {r : Rule} {i : NamedInsertion}
    (h : (d.namedRule r).edit = some (.insertion i)) :
    ∃ j, r.edit = some (.insertion j) ∧ i.tree = j.tree ∧
      i.semantic = j.semantic.map d.vocabulary.namedNodes := by
  obtain ⟨edit, hedit, heq⟩ := Option.map_eq_some_iff.mp
    (show r.edit.map d.vocabulary.namedEdit = some (.insertion i) from h)
  cases edit with
  | transposition cost => simp [Vocabulary.namedEdit] at heq
  | insertion j =>
    obtain rfl := NamedEdit.insertion.inj heq
    exact ⟨j, hedit, rfl, rfl⟩

/-- The rows of a draft that is consistent and attaches live semantics are closed. -/
theorem Consistent.closedRow (hd : d.Consistent) (hlive : d.AttachesLive) {X : SymbolId} {r : Rule}
    (hr : r ∈ d.rules X) : (Document.ofDraft d).ClosedRow (d.namedRule r) := by
  have hfit := hd.rules X r hr
  have hsymbol : ∀ Y ∈ d.liveSymbols, d.symbolName Y ∈ d.ruleSets.keys :=
    fun Y hY => (mem_keys_ruleSets_iff hd.names).mpr ⟨Y, hY, rfl⟩
  have hsemantic : ∀ id, d.Attaches id → d.vocabulary.name id ∈ d.semanticTraits.keys :=
    fun id hid => mem_keys_semanticTraits_iff.mpr ⟨id, hlive id hid, rfl⟩
  constructor
  · intro part hpart
    rw [parts_namedRule] at hpart
    obtain ⟨Y, hY, rfl⟩ := List.mem_map.mp hpart
    exact hsymbol Y (hfit.parts Y hY)
  · intro category hcategory
    obtain ⟨c, hc, rfl⟩ := placeholder_of_namedRule hcategory
    exact mem_keys_categoryInstances_iff.mpr ⟨c, hfit.category c hc, rfl⟩
  · intro a ha name hname
    obtain ⟨b, hb, rfl⟩ := Option.map_eq_some_iff.mp
      (show r.semantic.map d.vocabulary.namedAttachment = some a from ha)
    rw [Vocabulary.names_namedAttachment] at hname
    obtain ⟨id, hid, rfl⟩ := List.mem_map.mp hname
    exact hsemantic id ⟨X, r, hr, b, hb, hid⟩
  · intro i tree hi htree name hname
    obtain ⟨j, hj, heq, -⟩ := insertion_of_namedRule hi
    obtain ⟨Y, hY, rfl⟩ := (hd.edits X r hr _ hj).tree j tree rfl (heq ▸ htree) name hname
    exact hsymbol Y (live_of_occurs hY)
  · intro i nodes hi hnodes name hname
    obtain ⟨j, hj, -, heq⟩ := insertion_of_namedRule hi
    obtain ⟨forest, hforest, rfl⟩ := Option.map_eq_some_iff.mp (heq.symm.trans hnodes)
    rw [Vocabulary.namesAll_namedNodes] at hname
    obtain ⟨id, hid, rfl⟩ := List.mem_map.mp hname
    obtain ⟨Y, q, a, hq, ha, hmem⟩ := (hd.edits X r hr _ hj).inserted j forest rfl hforest id hid
    exact hsemantic id ⟨Y, q, hq.expands.1, a, ha, hmem⟩

theorem indexes_shaped (excluded : Excluded) :
    (excluded.indexes.map UInt64.ofNat).Pairwise (· < ·) ∧
      ∀ index ∈ excluded.indexes.map UInt64.ofNat, index.toNat < 2 := by
  obtain ⟨first, second⟩ := excluded
  cases first <;> cases second <;> simp [Excluded.indexes]

theorem FitRule.shapedRow {r : Rule} (h : d.FitRule r)
    (hterminal : ∀ term text, r.expansion = .terminal term text → Text.wordsOf term = [term]) :
    Document.ShapedRow (d.namedRule r) := by
  have htransposition := h.transposition
  have hinsertion := h.insertion
  have hedit : r.edit = none → (d.namedRule r).edit = none := fun he => by simp [namedRule, he]
  have hcost : (d.namedRule r).insertionCost = r.insertionCost := rfl
  cases hx : r.expansion with
  | unary part noInsertion =>
    have hnone : ¬ r.insertionCost.isSome = true := fun hcost => by
      simpa [hx, Expansion.isLexical] using hinsertion hcost
    constructor
    · intro names hnames
      have hone : [d.symbolName part] = names := by simpa [namedRule, namedExpansion, hx] using hnames
      simp [← hone]
    · simp [namedRule, namedExpansion, hx]
    · simp [namedRule, namedExpansion, hx]
    · cases noInsertion <;>
        simp [namedRule, namedExpansion, hx, NamedRhs.length, NamedRhs.parts]
    · simp [namedRule, namedExpansion, hx]
    · exact fun h => absurd (hcost ▸ h) hnone
  | binary first second cost excluded =>
    have hnone : ¬ r.insertionCost.isSome = true := fun hcost => by
      simpa [hx, Expansion.isLexical] using hinsertion hcost
    constructor
    · intro names hnames
      have htwo : [d.symbolName first, d.symbolName second] = names := by
        simpa [namedRule, namedExpansion, hx] using hnames
      simp [← htwo]
    · simp [namedRule, namedExpansion, hx]
    · simp [namedRule, namedExpansion, hx]
    · simpa [namedRule, namedExpansion, hx, NamedRhs.length, NamedRhs.parts] using
        indexes_shaped excluded
    · intro h
      have hsome : cost.isSome = true := by simpa [namedRule, namedExpansion, hx] using h
      obtain ⟨price, rfl⟩ := Option.isSome_iff_exists.mp hsome
      refine ⟨⟨d.symbolName first, d.symbolName second, ?_⟩,
        hedit (htransposition first second price excluded hx)⟩
      simp [namedRule, namedExpansion, hx]
    · exact fun h => absurd (hcost ▸ h) hnone
  | terminal term text =>
    constructor
    · simp [namedRule, namedExpansion, hx]
    · simp [namedRule, namedExpansion, hx]
    · intro t ht
      obtain rfl : term = t := by simpa [namedRule, namedExpansion, hx] using ht
      exact hterminal term text hx
    · simp [namedRule, namedExpansion, hx]
    · simp [namedRule, namedExpansion, hx]
    · simp [namedRule, namedExpansion, hx, NamedRhs.isLexical]
  | sequence first second text =>
    constructor
    · simp [namedRule, namedExpansion, hx]
    · intro names hnames
      have hparts : d.symbolName first :: second.toList.map d.symbolName = names := by
        simpa [namedRule, namedExpansion, hx] using hnames
      cases second <;> simp [← hparts]
    · simp [namedRule, namedExpansion, hx]
    · simp [namedRule, namedExpansion, hx]
    · simp [namedRule, namedExpansion, hx]
    · simp [namedRule, namedExpansion, hx, NamedRhs.isLexical]
  | placeholder category =>
    have hnone : ¬ r.insertionCost.isSome = true := fun hcost => by
      simpa [hx, Expansion.isLexical] using hinsertion hcost
    constructor
    · simp [namedRule, namedExpansion, hx]
    · simp [namedRule, namedExpansion, hx]
    · simp [namedRule, namedExpansion, hx]
    · simp [namedRule, namedExpansion, hx]
    · simp [namedRule, namedExpansion, hx]
    · exact fun h => absurd (hcost ▸ h) hnone

/-- An edit leads nowhere that the rule it was made from does not lead. -/
theorem Consistent.exists_unedited (hd : d.Consistent) {X : SymbolId} {r : Rule}
    (hr : r ∈ d.rules X) : ∃ q ∈ d.rules X, q.edit = none ∧ q.semantic = r.semantic ∧
      r.expansion.parts ⊆ q.expansion.parts := by
  cases hedit : r.edit with
  | none => exact ⟨r, hr, hedit, rfl, fun _ hY => hY⟩
  | some edit =>
    obtain ⟨parent, happlies, hplain, hsemantic, hparts⟩ := (hd.edits X r hr edit hedit).parent
    exact ⟨parent, happlies.expands.1, hplain, hsemantic, hparts⟩

theorem Consistent.leads (hd : d.Consistent) {X Y : SymbolId} {r : Rule} (hr : r ∈ d.rules X)
    (hY : Y ∈ r.expansion.parts) :
    (Document.ofDraft d).Leads (d.symbolName X) (d.symbolName Y) := by
  obtain ⟨q, hq, hplain, -, hparts⟩ := hd.exists_unedited hr
  obtain ⟨row, hrow, halike⟩ := exists_hasRow_of_rule hd.names hq
  refine ⟨row, hrow, (edit_eq_none_of_alike halike).mpr hplain, ?_⟩
  rw [halike.rhs, parts_namedRule]
  exact List.mem_map_of_mem (hparts hY)

theorem Consistent.reachable (hd : d.Consistent) {X : SymbolId} (hX : d.Occurs X) :
    Relation.ReflTransGen (Document.ofDraft d).Leads (d.symbolName start) (d.symbolName X) := by
  refine hX.induction (P := fun X => Relation.ReflTransGen (Document.ofDraft d).Leads
    (d.symbolName start) (d.symbolName X)) .refl fun X r hpath hr _ Y hY => ?_
  exact hpath.tail (hd.leads hr hY)

section Written

variable (hd : d.Consistent) (hu : d.Used)
variable (hsingle : ∀ X, ∀ r ∈ d.rules X, ∀ term text, r.expansion = .terminal term text →
  Text.wordsOf term = [term])
include hd

/-- A semantic that a row attaches is a key only if it is live. -/
theorem Consistent.attachesLive (hclosed : ∀ name row, (Document.ofDraft d).HasRow name row →
    (Document.ofDraft d).ClosedRow row) : d.AttachesLive := by
  rintro id ⟨X, r, hr, a, ha, hid⟩
  obtain ⟨row, hrow, halike⟩ := exists_hasRow_of_rule hd.names hr
  have hsemantic : row.semantic = some (d.vocabulary.namedAttachment a) := by
    rw [halike.semantic]
    simp [namedRule, ha]
  have hkey := (hclosed _ row hrow).semantic _ hsemantic (d.vocabulary.name id) (by
    rw [Vocabulary.names_namedAttachment]
    exact List.mem_map_of_mem hid)
  obtain ⟨k, hk, hname⟩ := mem_keys_semanticTraits_iff.mp hkey
  have hlt := (hd.rules X r hr).semantics a ha id hid
  rw [← Vocabulary.name_inj hd.definitions (mem_liveSemantics_iff.mp hk).1 hlt hname]
  exact hk

include hu hsingle

theorem Consistent.wellFormed (hlive : d.AttachesLive) : (Document.ofDraft d).WellFormed := by
  constructor
  · exact (mem_keys_ruleSets_iff hd.names).mpr ⟨start, hd.startLive, rfl⟩
  · intro name rows hrows
    obtain ⟨X, hX, -, rfl⟩ := (find?_ruleSets_iff hd.names).mp hrows
    obtain ⟨r, hr⟩ := hu.occurs X hX
    obtain ⟨row, hrow, -⟩ := NamedRule.exists_alike_of_mem
      (List.mem_map_of_mem (f := d.namedRule) hr.expands.1)
    exact ⟨List.ne_nil_of_mem hrow, NamedRule.pairwise_canonical _⟩
  · intro name row hrow
    obtain ⟨X, -, r, hr, rfl⟩ := exists_rule_of_hasRow hd.names hrow
    exact hd.closedRow hlive hr
  · intro name row hrow
    obtain ⟨X, -, r, hr, rfl⟩ := exists_rule_of_hasRow hd.names hrow
    exact (hd.rules X r hr).shapedRow (hsingle X r hr)
  · intro name hname
    obtain ⟨X, hX, rfl⟩ := (mem_keys_ruleSets_iff hd.names).mp hname
    exact hd.reachable (hu.occurs X hX)
  · intro name hname
    obtain ⟨id, hid, rfl⟩ := mem_keys_semanticTraits_iff.mp hname
    obtain ⟨X, r, hr, a, ha, hmem⟩ := hu.semantics id hid
    obtain ⟨q, hq, hplain, hsemantic, -⟩ := hd.exists_unedited hr
    obtain ⟨row, hrow, halike⟩ := exists_hasRow_of_rule hd.names hq
    refine ⟨_, row, d.vocabulary.namedAttachment a, hrow,
      (edit_eq_none_of_alike halike).mpr hplain, ?_, ?_⟩
    · rw [halike.semantic]
      simp [namedRule, hsemantic, ha]
    · rw [Vocabulary.names_namedAttachment]
      exact List.mem_map_of_mem hmem
  · intro name hname
    obtain ⟨c, hc, rfl⟩ := mem_keys_categoryInstances_iff.mp hname
    obtain ⟨X, r, hr, hx⟩ := hu.entityCategories c hc
    have hplain : r.edit = none := by
      cases hedit : r.edit with
      | none => rfl
      | some edit => exact absurd (by simp [hx, Expansion.parts]) (hd.edits X r hr edit hedit).parted
    obtain ⟨row, hrow, halike⟩ := exists_hasRow_of_rule hd.names hr
    refine ⟨_, row, hrow, (edit_eq_none_of_alike halike).mpr hplain, ?_⟩
    rw [halike.rhs]
    simp [namedRule, namedExpansion, hx]

/-- The document is well formed exactly when no rule attaches a semantic that has been pruned. -/
theorem Consistent.wellFormed_iff : (Document.ofDraft d).WellFormed ↔ d.AttachesLive :=
  ⟨fun h => hd.attachesLive h.closed, fun h => hd.wellFormed hu hsingle h⟩

end Written

end Draft

end QueryGrammar
