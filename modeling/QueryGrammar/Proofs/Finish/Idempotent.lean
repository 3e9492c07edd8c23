import QueryGrammar.Proofs.Finish.Used
/-!
What the removal of the unused leaves is in use down to the last rule, and of such a draft nothing
is removed. So the removal settles at once, and its policy decides only whether what it would report
is refused.
-/
namespace QueryGrammar.Draft

variable {d : Draft}

/-- Everything is used, and each rule is applied on the way from the start symbol. -/
structure InUse (d : Draft) : Prop extends d.Used where
  start : d.Expands start
  applies : ∀ {X : SymbolId} {r : Rule}, r ∈ d.rules X → d.Applies X r

theorem Used.inUse (hu : d.Used) (hd : d.Consistent) : d.InUse :=
  ⟨hu, expands_of_occurs (hu.occurs start hd.startLive), hu.applies hd⟩

/-- Nothing is asked of the draft: rules that lead nowhere go, and so does what only they used. -/
theorem inUse_trimmed (hstart : d.Expands start) : d.trimmed.InUse where
  toUsed := used_trimmed hstart
  start := by
    obtain ⟨r, hr⟩ := Productions.occurs_root hstart
    exact expands_of_occurs ⟨r, applies_trimmed hstart hr⟩
  applies hr := applies_trimmed hstart ((mem_rules_trimmed_iff hstart).mp hr)

/-! ### Nothing is removed -/

namespace InUse

variable (h : d.InUse)
include h

theorem attaches_trimmed {id : SemanticId} (hid : d.Attaches id) : d.trimmed.Attaches id := by
  obtain ⟨X, r, hr, a, ha, hmem⟩ := hid
  exact ⟨X, r, (mem_rules_trimmed_iff h.start).mpr (h.applies hr), a, ha, hmem⟩

theorem places_trimmed {id : EntityCategoryId} (hid : d.Places id) : d.trimmed.Places id := by
  obtain ⟨X, r, hr, hx⟩ := hid
  exact ⟨X, r, (mem_rules_trimmed_iff h.start).mpr (h.applies hr), hx⟩

theorem unused_eq : d.unused d.productive (d.reachable d.productive) = ⟨[], [], []⟩ := by
  have hsymbols : (d.unused d.productive (d.reachable d.productive)).symbols = [] := by
    apply List.eq_nil_iff_forall_not_mem.mpr
    intro id hid
    obtain ⟨hlive, -, hnot⟩ := (mem_unused_symbols_iff h.start).mp hid
    exact hnot (h.occurs id hlive)
  have hsemantics : (d.unused d.productive (d.reachable d.productive)).semantics = [] := by
    apply List.eq_nil_iff_forall_not_mem.mpr
    intro id hid
    obtain ⟨hlive, hnot⟩ := (mem_unused_semantics_iff h.start).mp hid
    exact hnot (h.attaches_trimmed (h.semantics id hlive))
  have hcategories : (d.unused d.productive (d.reachable d.productive)).categories = [] := by
    apply List.eq_nil_iff_forall_not_mem.mpr
    intro id hid
    obtain ⟨hlive, hnot⟩ := (mem_unused_categories_iff h.start).mp hid
    exact hnot (h.places_trimmed (h.entityCategories id hlive))
  calc d.unused d.productive (d.reachable d.productive)
      = ⟨(d.unused d.productive (d.reachable d.productive)).symbols,
          (d.unused d.productive (d.reachable d.productive)).semantics,
          (d.unused d.productive (d.reachable d.productive)).categories⟩ := rfl
    _ = ⟨[], [], []⟩ := by rw [hsymbols, hsemantics, hcategories]

theorem trimSymbol_eq {i : Nat} {s : Symbol} (hs : d.symbols[i]? = some s) :
    trimSymbol d.productive (d.reachable d.productive) s ⟨i⟩ = s := by
  unfold trimSymbol
  by_cases hpruned : s.pruned = true
  · rw [if_pos hpruned]
  · have hget : d.get? ⟨i⟩ = some s := get?_eq_some_iff.mpr ⟨hs, by simpa using hpruned⟩
    have hoccurs := h.occurs ⟨i⟩ (mem_liveSymbols_iff.mpr ⟨s, hget⟩)
    have hkept := (kept_iff h.start).mpr hoccurs
    have hall : s.rules.filter (usesOnly d.productive) = s.rules := by
      apply List.filter_eq_self.mpr
      intro r hr
      rw [← rules_of_get? hget] at hr
      exact (applies_iff.mp (h.applies hr)).2.2
    rw [if_neg hpruned, if_pos (by simpa using hkept), hall]

theorem trimmed_eq : d.trimmed = d := by
  have hsymbols : (d.symbols.zipIdx.map fun p =>
      trimSymbol d.productive (d.reachable d.productive) p.1 ⟨p.2⟩) = d.symbols := by
    apply List.ext_getElem?
    intro i
    rw [List.getElem?_map, List.getElem?_zipIdx]
    cases hs : d.symbols[i]? with
    | none => rfl
    | some s =>
      simp only [Option.map_some, Nat.zero_add]
      rw [h.trimSymbol_eq hs]
  unfold trimmed
  rw [h.unused_eq]
  simp only [List.foldl_nil]
  rw [hsymbols]

/-- Nothing is reported either, so no policy refuses it. -/
theorem removeUnused_eq (policy : UnusedPolicy) : d.removeUnused policy = .ok ([], d) := by
  have hstart : Draft.start ∈ d.productive := mem_productive_iff.mpr h.start
  have hnames : d.unusedOf = [] := by
    rw [unusedOf, h.unused_eq]
    rfl
  rw [Draft.removeUnused_eq, hnames, h.trimmed_eq, if_neg (not_not.mpr hstart)]
  simp

end InUse

/-! ### Policies -/

/-- The removal as a call on a draft, which keeps the draft where it is refused. -/
def removal (policy : UnusedPolicy) : Change Draft (List String) :=
  .call (·.removeUnused policy)

theorem perform_removal (d : Draft) (policy : UnusedPolicy) : (removal policy).perform d =
    if start ∉ d.productive then (.error (.emptyGrammar (d.symbolName start)), d)
    else if d.unusedOf ≠ [] ∧ policy = .deny then (.error (.unusedComponents d.unusedOf), d)
    else (.ok d.unusedOf, d.trimmed) := by
  rw [removal, Change.perform_call, removeUnused_eq]
  by_cases hstart : start ∉ d.productive
  · simp only [if_pos hstart]
  · by_cases hdeny : d.unusedOf ≠ [] ∧ policy = .deny
    · simp only [if_neg hstart, if_pos hdeny]
    · simp only [if_neg hstart, if_neg hdeny]

theorem perform_removal_eq_ok_iff {policy : UnusedPolicy} {names : List String} {kept : Draft} :
    (removal policy).perform d = (.ok names, kept) ↔
      d.Expands start ∧ (policy = .deny → names = []) ∧ names = d.unusedOf ∧ kept = d.trimmed := by
  rw [perform_removal, ← mem_productive_iff]
  by_cases hstart : start ∈ d.productive
  · rw [if_neg (not_not.mpr hstart)]
    by_cases hdeny : d.unusedOf ≠ [] ∧ policy = .deny
    · rw [if_pos hdeny]
      refine iff_of_false (by simp) ?_
      rintro ⟨-, hnone, rfl, -⟩
      exact hdeny.1 (hnone hdeny.2)
    · rw [if_neg hdeny, Prod.mk.injEq, Except.ok.injEq]
      constructor
      · rintro ⟨rfl, rfl⟩
        exact ⟨hstart, fun hp => not_not.mp fun hne => hdeny ⟨hne, hp⟩, rfl, rfl⟩
      · rintro ⟨-, -, rfl, rfl⟩
        exact ⟨rfl, rfl⟩
  · rw [if_pos hstart]
    exact iff_of_false (by simp) fun h => hstart h.1

theorem removal_eq_unusedComponents_iff {names : List String} :
    ((removal .deny).perform d).1 = .error (.unusedComponents names) ↔
      d.Expands start ∧ names ≠ [] ∧ names = d.unusedOf := by
  rw [perform_removal, ← mem_productive_iff]
  by_cases hstart : start ∈ d.productive
  · by_cases hnone : d.unusedOf = []
    · simp [hstart, hnone]
    · simp only [hstart, hnone, not_true_eq_false, if_false, ne_eq, not_false_eq_true, and_self,
        if_true, Except.error.injEq, BuildError.unusedComponents.injEq, true_and]
      exact ⟨fun h => ⟨h ▸ hnone, h.symm⟩, fun h => h.2.symm⟩
  · simp [hstart]

/-- The removal of the unused settles at once, is all or nothing, and its policy says only whether
what it reports is refused: a second removal under any policy reports nothing and changes nothing,
and denying refuses exactly the reports that warning returns. -/
theorem removal_settles (d : Draft) :
    (∀ policy names kept, (removal policy).perform d = (.ok names, kept) →
      ∀ again, (removal again).perform kept = (.ok [], kept)) ∧
    (∀ policy err after, (removal policy).perform d = (.error err, after) → after = d) ∧
    (∀ names, ((removal .deny).perform d).1 = .error (.unusedComponents names) ↔
      names ≠ [] ∧ ((removal .warn).perform d).1 = .ok names) ∧
    ∀ names kept, (removal .deny).perform d = (.ok names, kept) ↔
      names = [] ∧ (removal .warn).perform d = (.ok names, kept) := by
  refine ⟨fun policy names kept h again => ?_, fun policy err after h => ?_, fun names => ?_,
    fun names kept => ?_⟩
  · obtain ⟨hstart, -, -, rfl⟩ := perform_removal_eq_ok_iff.mp h
    rw [removal, Change.perform_call, (inUse_trimmed hstart).removeUnused_eq]
  · rw [perform_removal] at h
    split at h
    · exact (Prod.mk.inj h).2.symm
    · split at h
      · exact (Prod.mk.inj h).2.symm
      · cases h
  · have hwarn : ((removal .warn).perform d).1 = .ok names ↔
        ∃ kept, (removal .warn).perform d = (.ok names, kept) :=
      ⟨fun h => ⟨_, Prod.ext h rfl⟩, fun ⟨_, h⟩ => congrArg Prod.fst h⟩
    simp only [removal_eq_unusedComponents_iff, hwarn, perform_removal_eq_ok_iff]
    constructor
    · rintro ⟨hstart, hne, rfl⟩
      exact ⟨hne, _, hstart, by simp, rfl, rfl⟩
    · rintro ⟨hne, _, hstart, -, rfl, -⟩
      exact ⟨hstart, hne, rfl⟩
  · rw [perform_removal_eq_ok_iff, perform_removal_eq_ok_iff]
    constructor
    · rintro ⟨hstart, hnone, hnames, hkept⟩
      exact ⟨hnone rfl, hstart, by simp, hnames, hkept⟩
    · rintro ⟨hnone, hstart, -, hnames, hkept⟩
      exact ⟨hstart, fun _ => hnone, hnames, hkept⟩

end QueryGrammar.Draft
