import QueryGrammar.Proofs.Finish.Productive
import QueryGrammar.Proofs.Order.Keyed
/-!
Removing the unused keeps exactly what derivations from the start symbol use. Symbols that do not
expand have to go before reachability is asked for: a rule over one of them leads nowhere.
-/
namespace QueryGrammar.Draft

variable {d : Draft}

/-! ### What the start symbol reaches -/

theorem mem_reachable_iff (hstart : d.Expands start) {id : SymbolId} :
    id ∈ d.reachable d.productive ↔ d.Occurs id := by
  rw [reachable, mem_reachedFrom_iff]
  constructor
  · intro h
    induction h with
    | root hid =>
      rw [List.mem_singleton.mp hid]
      exact Productions.occurs_root hstart
    | step _ hr hu hp ih =>
      exact (ih.applies hr (usesOnly_productive_iff.mp hu)).occurs_part hp
  · exact fun h => h.induction (.root (by simp)) fun X r hX hr hp Y hY =>
      .step hX hr (usesOnly_productive_iff.mpr hp) hY

theorem applies_iff {id : SymbolId} {r : Rule} :
    d.Applies id r ↔ d.Occurs id ∧ r ∈ d.rules id ∧ usesOnly d.productive r = true := by
  rw [usesOnly_productive_iff]
  exact ⟨fun h => ⟨⟨r, h⟩, h.expands⟩, fun ⟨ho, hr, hp⟩ => ho.applies hr hp⟩

theorem expands_of_occurs {id : SymbolId} (h : d.Occurs id) : d.Expands id := by
  obtain ⟨r, hr⟩ := h
  exact Productions.expands_iff.mpr ⟨r, hr.expands⟩

theorem live_of_occurs {id : SymbolId} (h : d.Occurs id) : id ∈ d.liveSymbols := by
  obtain ⟨r, hr⟩ := h
  exact live_of_mem_rules hr.expands.1

theorem mem_usedRules_iff (hstart : d.Expands start) {r : Rule} :
    r ∈ d.usedRules d.productive (d.reachable d.productive) ↔ ∃ id, d.Applies id r := by
  simp only [usedRules, List.mem_flatMap, List.mem_filter, mem_reachable_iff hstart, applies_iff]

/-! ### The trimmed draft -/

/-- The draft that is left once the unused is removed. -/
def trimmed (d : Draft) : Draft :=
  let u := d.unused d.productive (d.reachable d.productive)
  u.categories.foldl dropEntityCategory (u.semantics.foldl dropSemantic
    { d with symbols := d.symbols.zipIdx.map fun (s, i) =>
        trimSymbol d.productive (d.reachable d.productive) s ⟨i⟩ })

/-- The names of what could be used but is not. -/
def unusedOf (d : Draft) : List String :=
  d.unusedNames (d.unused d.productive (d.reachable d.productive))

theorem removeUnused_eq (d : Draft) (policy : UnusedPolicy) :
    d.removeUnused policy =
      if start ∉ d.productive then .error (.emptyGrammar (d.symbolName start))
      else if d.unusedOf ≠ [] ∧ policy = .deny then .error (.unusedComponents d.unusedOf)
      else .ok (d.unusedOf, d.trimmed) := by
  unfold removeUnused
  by_cases hstart : start ∈ d.productive
  · rw [if_neg (not_not.mpr hstart)]
    by_cases hdeny : d.unusedOf ≠ [] ∧ policy = .deny
    · rw [if_pos hdeny]
      obtain ⟨hnames, rfl⟩ := hdeny
      rw [unusedOf] at hnames
      simp [hstart, hnames]
      rfl
    · rw [if_neg hdeny]
      rw [unusedOf] at hdeny
      simp [hstart, hdeny]
      rfl
  · simp [hstart]
    rfl

theorem foldl_dropSemantic (ids : List SemanticId) (d : Draft) :
    ids.foldl dropSemantic d = { d with prunedSemantics := d.prunedSemantics ++ ids } := by
  induction ids generalizing d with
  | nil => simp
  | cons id ids ih => simp [ih, dropSemantic]

/-- Dropping categories changes nothing but which categories are live. -/
theorem foldl_dropEntityCategory (ids : List EntityCategoryId) (d : Draft) :
    ∃ categories : List EntityCategory,
      ids.foldl dropEntityCategory d = { d with entityCategories := categories } ∧
      ∀ i : Nat, categories[i]? = d.entityCategories[i]?.map fun c =>
        { c with pruned := c.pruned || ids.contains ⟨i⟩ } := by
  induction ids generalizing d with
  | nil => exact ⟨d.entityCategories, rfl, by simp⟩
  | cons id ids ih =>
    obtain ⟨categories, heq, hget⟩ := ih (d.dropEntityCategory id)
    refine ⟨categories, heq, fun i => ?_⟩
    rw [hget, dropEntityCategory, List.getElem?_modify, Option.map_eq_map, Option.map_map]
    congr 1
    funext c
    by_cases hi : id.index = i
    · subst hi
      simp
    · have hne : (⟨i⟩ : EntityCategoryId) ≠ id := fun h => hi (h ▸ rfl)
      simp [hi, hne]

theorem trimmed_symbols (d : Draft) : d.trimmed.symbols = d.symbols.zipIdx.map fun (s, i) =>
    trimSymbol d.productive (d.reachable d.productive) s ⟨i⟩ := by
  obtain ⟨_, heq, -⟩ := foldl_dropEntityCategory
    (d.unused d.productive (d.reachable d.productive)).categories _
  rw [trimmed, heq, foldl_dropSemantic]

@[simp] theorem trimmed_vocabulary (d : Draft) : d.trimmed.vocabulary = d.vocabulary := by
  obtain ⟨_, heq, -⟩ := foldl_dropEntityCategory
    (d.unused d.productive (d.reachable d.productive)).categories _
  rw [trimmed, heq, foldl_dropSemantic]

@[simp] theorem trimmed_pendingStopWords (d : Draft) :
    d.trimmed.pendingStopWords = d.pendingStopWords := by
  obtain ⟨_, heq, -⟩ := foldl_dropEntityCategory
    (d.unused d.productive (d.reachable d.productive)).categories _
  rw [trimmed, heq, foldl_dropSemantic]

theorem trimmed_prunedSemantics (d : Draft) : d.trimmed.prunedSemantics =
    d.prunedSemantics ++ (d.unused d.productive (d.reachable d.productive)).semantics := by
  obtain ⟨_, heq, -⟩ := foldl_dropEntityCategory
    (d.unused d.productive (d.reachable d.productive)).categories _
  rw [trimmed, heq, foldl_dropSemantic]

theorem trimmed_entityCategories (d : Draft) (i : Nat) :
    d.trimmed.entityCategories[i]? = d.entityCategories[i]?.map fun c =>
      { c with pruned := c.pruned ||
          (d.unused d.productive (d.reachable d.productive)).categories.contains ⟨i⟩ } := by
  obtain ⟨_, heq, hget⟩ := foldl_dropEntityCategory
    (d.unused d.productive (d.reachable d.productive)).categories _
  rw [trimmed, heq, hget, foldl_dropSemantic]

@[simp] theorem trimmed_entityCategoryName (d : Draft) (id : EntityCategoryId) :
    d.trimmed.entityCategoryName id = d.entityCategoryName id := by
  rw [entityCategoryName, entityCategoryName, trimmed_entityCategories]
  cases d.entityCategories[id.index]? <;> rfl

theorem trimSymbol_name (productive reached : List SymbolId) (s : Symbol) (id : SymbolId) :
    (trimSymbol productive reached s id).name = s.name := by
  unfold trimSymbol
  split
  · rfl
  · split <;> rfl

@[simp] theorem trimmed_symbolName (d : Draft) (id : SymbolId) :
    d.trimmed.symbolName id = d.symbolName id := by
  rw [symbolName, symbolName, trimmed_symbols, List.getElem?_map, List.getElem?_zipIdx]
  cases d.symbols[id.index]? with
  | none => rfl
  | some s => exact trimSymbol_name _ _ s _

theorem trimmed_names (d : Draft) :
    d.trimmed.symbols.map (·.name) = d.symbols.map (·.name) := by
  rw [trimmed_symbols, List.map_map]
  conv_rhs => rw [← List.zipIdx_map_fst 0 d.symbols, List.map_map]
  exact List.map_congr_left fun p _ => trimSymbol_name _ _ p.1 _

theorem trimmed_get? (d : Draft) (id : SymbolId) : d.trimmed.get? id =
    if id ∈ d.productive ∧ id ∈ d.reachable d.productive then
      (d.get? id).map fun s => { s with rules := s.rules.filter (usesOnly d.productive) }
    else none := by
  rw [get?, get?, trimmed_symbols, List.getElem?_map, List.getElem?_zipIdx]
  cases d.symbols[id.index]? with
  | none => simp
  | some s =>
    cases hs : s.pruned with
    | true => simp [trimSymbol, hs, Option.filter]
    | false =>
      by_cases hk : id ∈ d.productive ∧ id ∈ d.reachable d.productive
      · simp [trimSymbol, hs, hk, Option.filter]
      · simp [trimSymbol, hs, hk, Option.filter]

theorem mem_liveSemantics_trimmed {id : SemanticId} : id ∈ d.trimmed.liveSemantics ↔
    id ∈ d.liveSemantics ∧ id ∉ (d.unused d.productive (d.reachable d.productive)).semantics := by
  rw [mem_liveSemantics_iff, mem_liveSemantics_iff, trimmed_prunedSemantics, trimmed_vocabulary,
    List.mem_append, not_or, and_assoc]

theorem trimmed_entityCategory? (d : Draft) (id : EntityCategoryId) :
    d.trimmed.entityCategory? id =
      if id ∈ (d.unused d.productive (d.reachable d.productive)).categories then none
      else d.entityCategory? id := by
  rw [entityCategory?, entityCategory?, trimmed_entityCategories]
  cases d.entityCategories[id.index]? with
  | none => simp
  | some c =>
    by_cases h : id ∈ (d.unused d.productive (d.reachable d.productive)).categories <;>
      simp [h, Option.filter]

theorem mem_liveEntityCategories_trimmed {id : EntityCategoryId} :
    id ∈ d.trimmed.liveEntityCategories ↔ id ∈ d.liveEntityCategories ∧
      id ∉ (d.unused d.productive (d.reachable d.productive)).categories := by
  rw [mem_liveEntityCategories_iff, mem_liveEntityCategories_iff, trimmed_entityCategory?]
  by_cases h : id ∈ (d.unused d.productive (d.reachable d.productive)).categories <;> simp [h]

/-! ### What is kept -/

section Kept

variable (hstart : d.Expands start)
include hstart

theorem kept_iff {id : SymbolId} :
    id ∈ d.productive ∧ id ∈ d.reachable d.productive ↔ d.Occurs id := by
  rw [mem_productive_iff, mem_reachable_iff hstart]
  exact and_iff_right_of_imp expands_of_occurs

theorem mem_liveSymbols_trimmed_iff {id : SymbolId} :
    id ∈ d.trimmed.liveSymbols ↔ d.Occurs id := by
  rw [mem_liveSymbols_iff, trimmed_get?]
  by_cases ho : d.Occurs id
  · obtain ⟨s, hs⟩ := mem_liveSymbols_iff.mp (live_of_occurs ho)
    simp [(kept_iff hstart).mpr ho, hs, ho]
  · simp [(kept_iff hstart).not.mpr ho, ho]

theorem rules_trimmed_of_occurs {id : SymbolId} (ho : d.Occurs id) :
    d.trimmed.rules id = (d.rules id).filter (usesOnly d.productive) := by
  rw [rules, rules, trimmed_get?, if_pos ((kept_iff hstart).mpr ho)]
  cases d.get? id <;> rfl

theorem mem_rules_trimmed_iff {id : SymbolId} {r : Rule} :
    r ∈ d.trimmed.rules id ↔ d.Applies id r := by
  by_cases ho : d.Occurs id
  · rw [rules_trimmed_of_occurs hstart ho, List.mem_filter, applies_iff]
    simp [ho]
  · rw [rules, trimmed_get?, if_neg ((kept_iff hstart).not.mpr ho), applies_iff]
    simp [ho]

theorem mem_unused_symbols_iff {id : SymbolId} :
    id ∈ (d.unused d.productive (d.reachable d.productive)).symbols ↔
      id ∈ d.liveSymbols ∧ d.Expands id ∧ ¬ d.Occurs id := by
  rw [← mem_reachable_iff hstart, ← mem_productive_iff, unused, List.mem_filter]
  simp

theorem mem_unused_semantics_iff {id : SemanticId} :
    id ∈ (d.unused d.productive (d.reachable d.productive)).semantics ↔
      id ∈ d.liveSemantics ∧ ¬ d.trimmed.Attaches id := by
  have hused : id ∈ (d.usedRules d.productive (d.reachable d.productive)).flatMap
      (fun r => (r.semantic.map Attachment.ids).getD []) ↔ d.trimmed.Attaches id := by
    simp only [List.mem_flatMap, mem_usedRules_iff hstart, Attaches, mem_rules_trimmed_iff hstart]
    constructor
    · rintro ⟨r, ⟨X, hX⟩, hid⟩
      cases ha : r.semantic with
      | none => simp [ha] at hid
      | some a => exact ⟨X, r, hX, a, ha, by simpa [ha] using hid⟩
    · rintro ⟨X, r, hX, a, ha, hid⟩
      exact ⟨r, ⟨X, hX⟩, by simpa [ha] using hid⟩
  rw [← hused, unused, List.mem_filter]
  simp

theorem mem_unused_categories_iff {id : EntityCategoryId} :
    id ∈ (d.unused d.productive (d.reachable d.productive)).categories ↔
      id ∈ d.liveEntityCategories ∧ ¬ d.trimmed.Places id := by
  have hplaceholder : ∀ r : Rule, placeholderOf? r = some id ↔ r.expansion = .placeholder id := by
    intro r
    cases h : r.expansion <;> simp [placeholderOf?, h]
  have hused : id ∈ (d.usedRules d.productive (d.reachable d.productive)).filterMap
      placeholderOf? ↔ d.trimmed.Places id := by
    simp only [List.mem_filterMap, mem_usedRules_iff hstart, hplaceholder, Places,
      mem_rules_trimmed_iff hstart]
    exact ⟨fun ⟨r, ⟨X, hX⟩, h⟩ => ⟨X, r, hX, h⟩, fun ⟨X, r, hX, h⟩ => ⟨r, ⟨X, hX⟩, h⟩⟩
  rw [← hused, unused, List.mem_filter]
  simp

theorem mem_liveSemantics_trimmed_iff {id : SemanticId} :
    id ∈ d.trimmed.liveSemantics ↔ id ∈ d.liveSemantics ∧ d.trimmed.Attaches id := by
  rw [mem_liveSemantics_trimmed, mem_unused_semantics_iff hstart]
  exact and_congr_right fun h => by simp [h]

theorem mem_liveEntityCategories_trimmed_iff {id : EntityCategoryId} :
    id ∈ d.trimmed.liveEntityCategories ↔
      id ∈ d.liveEntityCategories ∧ d.trimmed.Places id := by
  rw [mem_liveEntityCategories_trimmed, mem_unused_categories_iff hstart]
  exact and_congr_right fun h => by simp [h]

theorem mem_unusedOf_iff {name : String} :
    name ∈ d.unusedOf ↔
      (∃ id ∈ d.liveSymbols, d.Expands id ∧ ¬ d.Occurs id ∧ d.symbolName id = name) ∨
      (∃ id ∈ d.liveSemantics, ¬ d.trimmed.Attaches id ∧ d.vocabulary.name id = name) ∨
      ∃ id ∈ d.liveEntityCategories, ¬ d.trimmed.Places id ∧ d.entityCategoryName id = name := by
  rw [unusedOf, unusedNames, Keyed.mem_distinct_id_iff]
  simp only [List.mem_append, List.mem_map, mem_unused_symbols_iff hstart,
    mem_unused_semantics_iff hstart, mem_unused_categories_iff hstart, and_assoc, or_assoc]

end Kept

/-! ### Exactness -/

open Classical in
/-- `kept` is what is left of a draft when exactly the used is kept, and `names` are the names of
what could be used but is not. -/
structure ExactlyTrimmed (d : Draft) (names : List String) (kept : Draft) : Prop where
  symbols : ∀ id, id ∈ kept.liveSymbols ↔ id ∈ d.liveSymbols ∧ d.Occurs id
  rules : ∀ id ∈ kept.liveSymbols, kept.rules id = (d.rules id).filter fun r => d.Applies id r
  semantics : ∀ id, id ∈ kept.liveSemantics ↔ id ∈ d.liveSemantics ∧ kept.Attaches id
  entityCategories : ∀ id,
    id ∈ kept.liveEntityCategories ↔ id ∈ d.liveEntityCategories ∧ kept.Places id
  ascending : names.Pairwise (· < ·)
  names : ∀ name, name ∈ names ↔
    (∃ id ∈ d.liveSymbols, d.Expands id ∧ ¬ d.Occurs id ∧ d.symbolName id = name) ∨
    (∃ id ∈ d.liveSemantics, ¬ kept.Attaches id ∧ d.vocabulary.name id = name) ∨
    ∃ id ∈ d.liveEntityCategories, ¬ kept.Places id ∧ d.entityCategoryName id = name

theorem exactlyTrimmed (hstart : d.Expands start) : d.ExactlyTrimmed d.unusedOf d.trimmed := by
  constructor
  · intro id
    rw [mem_liveSymbols_trimmed_iff hstart]
    exact (and_iff_right_of_imp live_of_occurs).symm
  · intro id hid
    have ho := (mem_liveSymbols_trimmed_iff hstart).mp hid
    rw [rules_trimmed_of_occurs hstart ho]
    refine List.filter_congr fun r hr => ?_
    have happ : d.Applies id r ↔ d.Occurs id ∧ r ∈ d.rules id ∧ usesOnly d.productive r = true :=
      applies_iff
    by_cases hu : usesOnly d.productive r = true <;> simp_all
  · exact fun id => mem_liveSemantics_trimmed_iff hstart
  · exact fun id => mem_liveEntityCategories_trimmed_iff hstart
  · exact Keyed.pairwise_distinct id _
  · exact fun name => mem_unusedOf_iff hstart

/-- The removal of the unused fails for want of an expansion of the start symbol exactly when there
is none, and otherwise keeps exactly what derivations use. -/
theorem remove_unused_exact (d : Draft) (policy : UnusedPolicy) :
    ((∃ name, d.removeUnused policy = .error (.emptyGrammar name)) ↔ ¬ d.Expands start) ∧
    (∀ names kept, d.removeUnused policy = .ok (names, kept) → d.ExactlyTrimmed names kept) ∧
    (policy = .warn → d.Expands start → ∃ names kept, d.removeUnused policy = .ok (names, kept)) := by
  have hmem : start ∈ d.productive ↔ d.Expands start := mem_productive_iff
  rw [removeUnused_eq]
  by_cases hstart : d.Expands start
  · rw [if_neg (not_not.mpr (hmem.mpr hstart))]
    by_cases hdeny : d.unusedOf ≠ [] ∧ policy = .deny
    · rw [if_pos hdeny]
      refine ⟨by simp [hstart], by simp, fun hwarn => ?_⟩
      exact absurd (hdeny.2.symm.trans hwarn) (by decide)
    · rw [if_neg hdeny]
      refine ⟨by simp [hstart], fun names kept h => ?_, fun _ _ => ⟨_, _, rfl⟩⟩
      cases h
      exact exactlyTrimmed hstart
  · rw [if_pos (hmem.not.mpr hstart)]
    exact ⟨by simp [hstart], by simp, fun _ h => absurd h hstart⟩

end QueryGrammar.Draft
