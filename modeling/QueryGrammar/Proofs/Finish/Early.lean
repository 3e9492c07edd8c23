import QueryGrammar.Proofs.Draft.StopWords
import QueryGrammar.Proofs.Workspace.Again
/-!
Stop words and the removal of the unused. A stop word is a rule without parts, so giving one to a
symbol in use changes nothing of what is used, and it makes no difference whether it is given before
the unused is removed or afterwards. What words a symbol is given, and whether it is there to be given
any, does depend on that.
-/
namespace QueryGrammar

open Change

attribute [ext] Draft

namespace Draft

open StopWords

variable {d e : Draft} {X Y : SymbolId} {word : String} {words : List String} {r : Rule}

/-! ### Stop words of symbols in use -/

theorem trimSymbol_congr {productive reached productive' reached' : List SymbolId}
    (hproductive : ∀ Y, Y ∈ productive' ↔ Y ∈ productive) (hreached : ∀ Y, Y ∈ reached' ↔ Y ∈ reached)
    (s : Symbol) (id : SymbolId) :
    trimSymbol productive' reached' s id = trimSymbol productive reached s id := by
  have huses : usesOnly productive' = usesOnly productive := by
    funext r
    exact Bool.eq_iff_iff.mpr (by simp only [usesOnly_iff, hproductive])
  simp only [trimSymbol, huses, Bool.and_eq_true, List.contains_iff_mem, hproductive, hreached]

/-- A symbol that is kept keeps a rule without parts. -/
theorem trimSymbol_append {productive reached : List SymbolId} {s : Symbol} {id : SymbolId}
    (hlive : s.pruned = false) (hkept : id ∈ productive ∧ id ∈ reached)
    (hparts : r.expansion.parts = []) :
    trimSymbol productive reached { s with rules := s.rules ++ [r] } id =
      { trimSymbol productive reached s id with
        rules := (trimSymbol productive reached s id).rules ++ [r] } := by
  simp [trimSymbol, hlive, hkept, usesOnly, hparts]

theorem applies_stopRule (hX : d.Occurs X) (h : stopRule word ∈ d.rules X) :
    d.Applies X (stopRule word) :=
  hX.applies h (by simp [productions, productionsBy, stopRule, Expansion.parts])

theorem unused_semantics_eq (hlive : e.liveSemantics = d.liveSemantics)
    (h : ∀ id, id ∈ (e.unused e.productive (e.reachable e.productive)).semantics ↔
      id ∈ (d.unused d.productive (d.reachable d.productive)).semantics) :
    (e.unused e.productive (e.reachable e.productive)).semantics =
      (d.unused d.productive (d.reachable d.productive)).semantics := by
  simp only [unused, hlive, List.mem_filter] at h ⊢
  refine List.filter_congr fun id hid => Bool.eq_iff_iff.mpr ?_
  simpa only [hid, true_and] using h id

theorem getElem?_appendStop (h : stopRule word ∉ d.rules X) (i : Nat) :
    (d.appendRule X (stopRule word)).symbols[i]? = d.symbols[i]?.map fun s =>
      if X.index = i then { s with rules := s.rules ++ [stopRule word] } else s := by
  have hlacks : d.lacks X (stopRule word) = true := by simpa using lacks_stopRule_iff.not.mpr h
  rw [Draft.appendRule, if_pos hlacks, getElem?_modifyRules d X (· ++ [stopRule word])]

theorem expands_appendStop (hX : d.Expands X) :
    (d.appendRule X (stopRule word)).Expands Y ↔ d.Expands Y := by
  obtain ⟨_, hrule, -⟩ := Productions.expands_iff.mp hX
  have hlive := live_of_mem_rules hrule
  constructor
  · refine Productions.Expands.induction (P := d.Expands) fun Z q hq hparts => ?_
    rcases (mem_rules_appendStop hlive).mp hq with hq | ⟨rfl, -⟩
    · exact Productions.expands_iff.mpr ⟨q, hq, hparts⟩
    · exact hX
  · refine Productions.Expands.induction (P := (d.appendRule X (stopRule word)).Expands)
      fun Z q hq hparts => ?_
    exact Productions.expands_iff.mpr ⟨q, (mem_rules_appendStop hlive).mpr (Or.inl hq), hparts⟩

section Occurs

variable (hstart : d.Expands start) (hX : d.Occurs X)
include hstart hX

theorem occurs_appendStop : (d.appendRule X (stopRule word)).Occurs Y ↔ d.Occurs Y := by
  have hlive := live_of_occurs hX
  have hexpands : ∀ Z, (d.appendRule X (stopRule word)).Expands Z ↔ d.Expands Z :=
    fun Z => expands_appendStop (expands_of_occurs hX)
  constructor
  · intro h
    refine h.induction (P := d.Occurs) (Productions.occurs_root hstart) fun Z q hZ hq hparts W hW => ?_
    rcases (mem_rules_appendStop hlive).mp hq with hq | ⟨-, rfl⟩
    · exact (hZ.applies hq fun V hV => (hexpands V).mp (hparts V hV)).occurs_part hW
    · simp [productions, productionsBy, stopRule, Expansion.parts] at hW
  · intro h
    refine h.induction (P := (d.appendRule X (stopRule word)).Occurs)
      (Productions.occurs_root ((hexpands _).mpr hstart)) fun Z q hZ hq hparts W hW => ?_
    exact (hZ.applies ((mem_rules_appendStop hlive).mpr (Or.inl hq))
      fun V hV => (hexpands V).mpr (hparts V hV)).occurs_part hW

theorem applies_appendStop : (d.appendRule X (stopRule word)).Applies Y r ↔
    d.Applies Y r ∨ Y = X ∧ r = stopRule word := by
  simp only [applies_iff, usesOnly_productive_iff, occurs_appendStop hstart hX,
    mem_rules_appendStop (live_of_occurs hX), expands_appendStop (expands_of_occurs hX)]
  constructor
  · rintro ⟨hoccurs, hr | hnew, hparts⟩
    · exact Or.inl ⟨hoccurs, hr, hparts⟩
    · exact Or.inr hnew
  · rintro (⟨hoccurs, hr, hparts⟩ | ⟨rfl, rfl⟩)
    · exact ⟨hoccurs, Or.inl hr, hparts⟩
    · exact ⟨hX, Or.inr ⟨rfl, rfl⟩, by simp [stopRule, Expansion.parts]⟩

theorem expands_start_appendStop : (d.appendRule X (stopRule word)).Expands start :=
  (expands_appendStop (expands_of_occurs hX)).mpr hstart

/-- What a stop word has not is found in the same drafts with it and without it. -/
theorem exists_rule_trimmed_appendStop {P : Rule → Prop} (hP : ¬ P (stopRule word)) :
    (∃ Y, ∃ r ∈ (d.appendRule X (stopRule word)).trimmed.rules Y, P r) ↔
      ∃ Y, ∃ r ∈ d.trimmed.rules Y, P r := by
  simp only [mem_rules_trimmed_iff (expands_start_appendStop hstart hX),
    mem_rules_trimmed_iff hstart, applies_appendStop hstart hX]
  constructor
  · rintro ⟨Y, r, hr | ⟨rfl, rfl⟩, hprop⟩
    · exact ⟨Y, r, hr, hprop⟩
    · exact absurd hprop hP
  · rintro ⟨Y, r, hr, hprop⟩
    exact ⟨Y, r, Or.inl hr, hprop⟩

theorem attaches_trimmed_appendStop (id : SemanticId) :
    (d.appendRule X (stopRule word)).trimmed.Attaches id ↔ d.trimmed.Attaches id :=
  exists_rule_trimmed_appendStop hstart hX (by simp [stopRule])

theorem places_trimmed_appendStop (c : EntityCategoryId) :
    (d.appendRule X (stopRule word)).trimmed.Places c ↔ d.trimmed.Places c :=
  exists_rule_trimmed_appendStop hstart hX (by simp [stopRule])

theorem semantics_unused_appendStop :
    ((d.appendRule X (stopRule word)).unused (d.appendRule X (stopRule word)).productive
      ((d.appendRule X (stopRule word)).reachable
        (d.appendRule X (stopRule word)).productive)).semantics =
      (d.unused d.productive (d.reachable d.productive)).semantics := by
  have hstart' : (d.appendRule X (stopRule word)).Expands start := expands_start_appendStop hstart hX
  refine unused_semantics_eq ?_ fun id => ?_
  · rw [rest_appendRule]
    rfl
  · rw [mem_unused_semantics_iff hstart', mem_unused_semantics_iff hstart,
      attaches_trimmed_appendStop hstart hX, rest_appendRule]
    rfl

theorem contains_unused_categories_appendStop (c : EntityCategoryId) :
    ((d.appendRule X (stopRule word)).unused (d.appendRule X (stopRule word)).productive
      ((d.appendRule X (stopRule word)).reachable
        (d.appendRule X (stopRule word)).productive)).categories.contains c =
      (d.unused d.productive (d.reachable d.productive)).categories.contains c := by
  rw [Bool.eq_iff_iff, List.contains_iff_mem, List.contains_iff_mem,
    mem_unused_categories_iff (expands_start_appendStop hstart hX),
    mem_unused_categories_iff hstart, places_trimmed_appendStop hstart hX, rest_appendRule]
  rfl

theorem symbols_trimmed_appendStop (hmem : stopRule word ∉ d.rules X) :
    (d.appendRule X (stopRule word)).trimmed.symbols =
      (d.trimmed.appendRule X (stopRule word)).symbols := by
  have hmem' : stopRule word ∉ d.trimmed.rules X := fun h =>
    hmem ((mem_rules_trimmed_iff hstart).mp h).expands.1
  have hstart' : (d.appendRule X (stopRule word)).Expands start := expands_start_appendStop hstart hX
  have hproductive : ∀ Y, Y ∈ (d.appendRule X (stopRule word)).productive ↔ Y ∈ d.productive :=
    fun Y => by simp only [mem_productive_iff, expands_appendStop (expands_of_occurs hX)]
  have hreached : ∀ Y, Y ∈ (d.appendRule X (stopRule word)).reachable
      (d.appendRule X (stopRule word)).productive ↔ Y ∈ d.reachable d.productive :=
    fun Y => by rw [mem_reachable_iff hstart', mem_reachable_iff hstart, occurs_appendStop hstart hX]
  apply List.ext_getElem?
  intro i
  rw [getElem?_appendStop hmem', trimmed_symbols, trimmed_symbols, List.getElem?_map,
    List.getElem?_map, List.getElem?_zipIdx, List.getElem?_zipIdx, getElem?_appendStop hmem]
  simp only [Option.map_map]
  refine Option.map_congr fun s hs => ?_
  simp only [Function.comp_apply, Nat.zero_add, trimSymbol_congr hproductive hreached]
  by_cases hi : X.index = i
  · obtain ⟨t, ht⟩ := mem_liveSymbols_iff.mp (live_of_occurs hX)
    obtain ⟨ht, hlive⟩ := get?_eq_some_iff.mp ht
    obtain rfl : s = t := Option.some.inj ((hi ▸ hs).symm.trans ht)
    subst hi
    simp only [if_true]
    exact trimSymbol_append hlive ((kept_iff hstart).mpr hX) rfl
  · simp only [if_neg hi]

/-- A stop word that a symbol in use is given stays when the unused is removed, and nothing else is
removed or kept on account of it. -/
theorem trimmed_appendStop :
    (d.appendRule X (stopRule word)).trimmed = d.trimmed.appendRule X (stopRule word) := by
  by_cases hmem : stopRule word ∈ d.rules X
  · rw [appendStop_of_mem hmem, appendStop_of_mem ((mem_rules_trimmed_iff hstart).mpr
      (applies_stopRule hX hmem))]
  have hrest := rest_appendRule d X (stopRule word)
  have hrest' := rest_appendRule d.trimmed X (stopRule word)
  ext1
  · exact symbols_trimmed_appendStop hstart hX hmem
  · rw [hrest', trimmed_vocabulary, hrest, trimmed_vocabulary]
  · rw [hrest', trimmed_prunedSemantics, semantics_unused_appendStop hstart hX, hrest,
      trimmed_prunedSemantics]
  · apply List.ext_getElem?
    intro i
    rw [trimmed_entityCategories, contains_unused_categories_appendStop hstart hX, hrest',
      trimmed_entityCategories, hrest]
  · rw [hrest', trimmed_pendingStopWords, hrest, trimmed_pendingStopWords]

end Occurs

section Given

variable (hstart : d.Expands start)
include hstart

theorem occurs_give (hX : words ≠ [] → d.Occurs X) : (give X words d).Occurs Y ↔ d.Occurs Y := by
  induction words generalizing d with
  | nil => rfl
  | cons word words ih =>
    have hX := hX (by simp)
    have hstart' : (d.appendRule X (stopRule word)).Expands start :=
      (expands_appendStop (expands_of_occurs hX)).mpr hstart
    exact (ih hstart' fun _ => (occurs_appendStop hstart hX).mpr hX).trans
      (occurs_appendStop hstart hX)

theorem expands_give (hX : words ≠ [] → d.Occurs X) : (give X words d).Expands start :=
  expands_of_occurs ((occurs_give hstart hX).mpr (Productions.occurs_root hstart))

theorem trimmed_give (hX : words ≠ [] → d.Occurs X) :
    (give X words d).trimmed = give X words d.trimmed := by
  induction words generalizing d with
  | nil => rfl
  | cons word words ih =>
    have hX := hX (by simp)
    have hstart' : (d.appendRule X (stopRule word)).Expands start :=
      (expands_appendStop (expands_of_occurs hX)).mpr hstart
    calc (give X (word :: words) d).trimmed
        = give X words (d.appendRule X (stopRule word)).trimmed :=
          ih hstart' fun _ => (occurs_appendStop hstart hX).mpr hX
      _ = give X (word :: words) d.trimmed := by
          rw [trimmed_appendStop hstart hX]
          rfl

theorem expands_giveAll {all : List (SymbolId × List String)}
    (hall : ∀ p ∈ all, p.2 ≠ [] → d.Occurs p.1) : (giveAll all d).Expands start := by
  induction all generalizing d with
  | nil => exact hstart
  | cons p rest ih =>
    have hp := hall p (by simp)
    exact ih (expands_give hstart hp) fun q hq hne =>
      (occurs_give hstart hp).mpr (hall q (List.mem_cons_of_mem _ hq) hne)

/-- As long as the symbols that get stop words are in use, it makes no difference whether they get them
before the unused is removed or afterwards. -/
theorem trimmed_giveAll {all : List (SymbolId × List String)}
    (hall : ∀ p ∈ all, p.2 ≠ [] → d.Occurs p.1) :
    (giveAll all d).trimmed = giveAll all d.trimmed := by
  induction all generalizing d with
  | nil => rfl
  | cons p rest ih =>
    have hp := hall p (by simp)
    have hrest : ∀ q ∈ rest, q.2 ≠ [] → (give p.1 p.2 d).Occurs q.1 := fun q hq hne =>
      (occurs_give hstart hp).mpr (hall q (List.mem_cons_of_mem _ hq) hne)
    calc (giveAll (p :: rest) d).trimmed
        = giveAll rest (give p.1 p.2 d).trimmed := ih (expands_give hstart hp) hrest
      _ = giveAll (p :: rest) d.trimmed := by
          rw [trimmed_give hstart hp]
          rfl

end Given

/-! ### Words that are free too early -/

/-- Words that the symbol has already need not be given. -/
theorem give_filter {q : String → Bool}
    (h : ∀ word ∈ words, q word = false → stopRule word ∈ d.rules X) :
    give X (words.filter q) d = give X words d := by
  induction words generalizing d with
  | nil => rfl
  | cons word words ih =>
    obtain ⟨hword, hrest⟩ := List.forall_mem_cons.mp h
    cases hq : q word with
    | true =>
      rw [List.filter_cons_of_pos hq]
      exact ih fun w hw hfree => rules_subset_give X [word] d X (hrest w hw hfree)
    | false =>
      rw [List.filter_cons_of_neg (by simp [hq]), ih hrest]
      exact congrArg (give X words) (appendStop_of_mem (hword hq)).symm

theorem giveAll_filter {α : Type} {items : List α} {key : α → SymbolId} {given : α → List String}
    {q : α → String → Bool}
    (h : ∀ x ∈ items, ∀ word ∈ given x, q x word = false → stopRule word ∈ d.rules (key x)) :
    giveAll (items.map fun x => (key x, (given x).filter (q x))) d =
      giveAll (items.map fun x => (key x, given x)) d := by
  induction items generalizing d with
  | nil => rfl
  | cons x items ih =>
    obtain ⟨hx, hrest⟩ := List.forall_mem_cons.mp h
    have hkept := ih (d := give (key x) (given x) d) fun y hy word hword hfree =>
      rules_subset_give _ _ d _ (hrest y hy word hword hfree)
    simp only [giveAll, List.map_cons, List.foldl_cons, give_filter hx] at hkept ⊢
    exact hkept

theorem Reaches.mono {use : Rule → Bool} {roots : List SymbolId} (h : ∀ Z, d.rules Z ⊆ e.rules Z)
    (hX : d.Reaches use roots X) : e.Reaches use roots X := by
  induction hX with
  | root hmem => exact .root hmem
  | step _ hr hu hp ih => exact .step ih (h _ hr) hu hp

section Allowed

variable (hstart : d.Expands start) {conflicting : Option SymbolId}
include hstart

/-- What is removed can only be where a token came from. -/
theorem conflictingTokens_trimmed_subset (root : SymbolId) :
    conflictingTokens d.trimmed root ⊆ conflictingTokens d root := by
  have hrules : ∀ Z, d.trimmed.rules Z ⊆ d.rules Z := fun Z r hr =>
    ((mem_rules_trimmed_iff hstart).mp hr).expands.1
  intro token htoken
  obtain ⟨Z, hZ, htoken⟩ := List.mem_flatMap.mp htoken
  obtain ⟨r, hr, htoken⟩ := List.mem_flatMap.mp htoken
  exact List.mem_flatMap.mpr ⟨Z, mem_reachedFrom_iff.mpr ((mem_reachedFrom_iff.mp hZ).mono hrules),
    List.mem_flatMap.mpr ⟨r, hrules Z hr, htoken⟩⟩

theorem allowed_subset_trimmed : allowed d conflicting ⊆ allowed d.trimmed conflicting := by
  cases conflicting with
  | none => exact fun _ h => h
  | some root =>
    intro word hword
    simp only [allowed, List.mem_filter, Bool.not_eq_true', List.contains_eq_mem,
      decide_eq_false_iff_not] at hword ⊢
    exact ⟨hword.1, fun h => hword.2 (conflictingTokens_trimmed_subset hstart root h)⟩

omit hstart in
theorem allowed_eq_filter_defaults (d : Draft) (conflicting : Option SymbolId) :
    allowed d conflicting = defaults.filter fun word => (allowed d conflicting).contains word := by
  cases conflicting with
  | none => exact (List.filter_eq_self.mpr fun word hword => by simpa using hword).symm
  | some root =>
    refine List.filter_congr fun word hword => ?_
    rw [Bool.eq_iff_iff, List.contains_iff_mem, allowed, List.mem_filter, and_iff_right hword]

/-- The words that are allowed are found among those that are allowed afterwards. -/
theorem allowed_eq_filter : allowed d conflicting =
    (allowed d.trimmed conflicting).filter fun word => (allowed d conflicting).contains word := by
  conv_lhs => rw [allowed_eq_filter_defaults]
  conv_rhs => rw [allowed_eq_filter_defaults d.trimmed, List.filter_filter]
  refine List.filter_congr fun word _ => ?_
  rw [Bool.eq_iff_iff, Bool.and_eq_true, List.contains_iff_mem, List.contains_iff_mem]
  exact (and_iff_left_of_imp fun h => allowed_subset_trimmed hstart h).symm

end Allowed

/-! ### Early and late -/

section Pending

variable (d : Draft) (pending : List (SymbolId × Option SymbolId))

theorem productive_defer :
    Draft.productive { d with pendingStopWords := pending } = d.productive := by
  have hrounds : ∀ (rounds : Nat) (known : List SymbolId),
      Draft.productiveRounds { d with pendingStopWords := pending } rounds known =
        d.productiveRounds rounds known := by
    intro rounds
    induction rounds with
    | zero => exact fun _ => rfl
    | succ rounds ih =>
      intro known
      rw [productiveRounds, productiveRounds, ih]
      rfl
  exact hrounds _ _

/-- What is removed does not depend on what waits. -/
theorem trimmed_defer : Draft.trimmed { d with pendingStopWords := pending } =
    { d.trimmed with pendingStopWords := pending } := by
  have hproductive := d.productive_defer pending
  have hreachable : Draft.reachable { d with pendingStopWords := pending } d.productive =
    d.reachable d.productive := rfl
  have hunused : Draft.unused { d with pendingStopWords := pending } d.productive
    (d.reachable d.productive) = d.unused d.productive (d.reachable d.productive) := rfl
  ext1
  · rw [trimmed_symbols, hproductive, hreachable, trimmed_symbols]
  · rw [trimmed_vocabulary, trimmed_vocabulary]
  · rw [trimmed_prunedSemantics, hproductive, hreachable, hunused, trimmed_prunedSemantics]
  · apply List.ext_getElem?
    intro i
    rw [trimmed_entityCategories, hproductive, hreachable, hunused, trimmed_entityCategories]
  · rw [trimmed_pendingStopWords]

end Pending

theorem filled_eq {count : Nat} (h : StopWords.fill.perform d = (.ok count, e)) :
    Fillable (settled d) d ∧ d.filled = giveAll (settled d) { d with pendingStopWords := [] } := by
  obtain ⟨-, hfillable, heq⟩ := perform_fill_eq_ok_iff.mp h
  refine ⟨hfillable, ?_⟩
  rw [filled, h]
  exact heq

/-- Each word that a waiting symbol is given if the unused is removed first, it has at the end anyway,
and it is in use. -/
def FillsAlike (d : Draft) : Prop :=
  ∀ p ∈ d.pendingStopWords, ∀ word ∈ allowed d.trimmed p.2,
    p.1 ∈ d.trimmed.liveSymbols ∧ stopRule word ∈ d.filled.rules p.1

section Early

variable {count count' : Nat} {f : Draft}

/-- Where everything is used, it is once stop words are filled. -/
theorem Used.filled_trimmed (hd : d.Consistent) (hu : d.Used)
    (h : StopWords.fill.perform d = (.ok count, e)) :
    d.filled.trimmed = d.filled ∧ d.filled.Expands start := by
  obtain ⟨hfillable, hfilled⟩ := filled_eq h
  have hexpands := (hu.inUse hd).start
  have hstart : Draft.Expands { d with pendingStopWords := [] } start := hexpands
  have hall : ∀ p ∈ settled d, p.2 ≠ [] → Draft.Occurs { d with pendingStopWords := [] } p.1 :=
    fun p hp hne => hu.occurs _ (hfillable p hp hne)
  refine ⟨?_, hfilled ▸ expands_giveAll hstart hall⟩
  calc d.filled.trimmed
      = giveAll (settled d) (Draft.trimmed { d with pendingStopWords := [] }) := by
        rw [hfilled, trimmed_giveAll hstart hall]
    _ = d.filled := by rw [trimmed_defer, (hu.inUse hd).trimmed_eq, hfilled]

/-- A waiting symbol has a stop word at the end because it was given it or because it had it. -/
theorem mem_rules_filled_iff (h : StopWords.fill.perform d = (.ok count, e))
    (honce : (d.pendingStopWords.map (·.1)).Nodup) {p : SymbolId × Option SymbolId}
    (hp : p ∈ d.pendingStopWords) : stopRule word ∈ d.filled.rules p.1 ↔
      stopRule word ∈ d.rules p.1 ∨ word ∈ allowed d p.2 := by
  obtain ⟨hfillable, hfilled⟩ := filled_eq h
  rw [hfilled, mem_rules_giveAll (d := { d with pendingStopWords := [] }) hfillable]
  refine or_congr Iff.rfl ⟨?_, fun hword => ?_⟩
  · rintro ⟨_, hmem, hX, w, hw, heq⟩
    obtain ⟨q, hq, rfl⟩ := List.mem_map.mp hmem
    obtain rfl : q = p := List.inj_on_of_nodup_map honce hq hp hX
    obtain rfl : word = w := by simpa [stopRule] using heq
    exact hw
  · exact ⟨_, List.mem_map_of_mem hp, rfl, word, hword, rfl⟩

/-- Where symbols are filled alike, it makes no difference when the unused is removed. -/
theorem FillsAlike.filled_trimmed (halike : d.FillsAlike)
    (honce : (d.pendingStopWords.map (·.1)).Nodup) (hstart : d.Expands start)
    (h : StopWords.fill.perform d = (.ok count, e))
    (h' : StopWords.fill.perform d.trimmed = (.ok count', f)) :
    d.filled.trimmed = d.trimmed.filled := by
  obtain ⟨-, hfilled⟩ := filled_eq h
  obtain ⟨-, hfilled'⟩ := filled_eq h'
  have hoccurs : ∀ p ∈ d.pendingStopWords, ∀ word ∈ allowed d.trimmed p.2, d.Occurs p.1 :=
    fun p hp word hword => (mem_liveSymbols_trimmed_iff hstart).mp (halike p hp word hword).1
  have hall : ∀ p ∈ settled d, p.2 ≠ [] → Draft.Occurs { d with pendingStopWords := [] } p.1 := by
    intro p hp hne
    obtain ⟨q, hq, rfl⟩ := List.mem_map.mp hp
    obtain ⟨word, hword⟩ := List.exists_mem_of_ne_nil _ hne
    exact hoccurs q hq word (allowed_subset_trimmed hstart hword)
  -- a word that becomes free by the removal is one that the symbol has
  have hhas : ∀ p ∈ d.pendingStopWords, ∀ word ∈ allowed d.trimmed p.2,
      (allowed d p.2).contains word = false → stopRule word ∈
        Draft.rules { d.trimmed with pendingStopWords := [] } p.1 := by
    intro p hp word hword hnot
    have hnot : word ∉ allowed d p.2 := by simpa using hnot
    have hmem := ((mem_rules_filled_iff h honce hp).mp (halike p hp word hword).2).resolve_right hnot
    exact (mem_rules_trimmed_iff hstart).mpr (applies_stopRule (hoccurs p hp word hword) hmem)
  have hsettled : settled d = d.pendingStopWords.map fun p =>
      (p.1, (allowed d.trimmed p.2).filter fun word => (allowed d p.2).contains word) :=
    List.map_congr_left fun p _ => congrArg _ (allowed_eq_filter hstart)
  calc d.filled.trimmed
      = giveAll (settled d) (Draft.trimmed { d with pendingStopWords := [] }) := by
        rw [hfilled, trimmed_giveAll (d := { d with pendingStopWords := [] }) hstart hall]
    _ = giveAll (settled d.trimmed) { d.trimmed with pendingStopWords := [] } := by
        rw [trimmed_defer, hsettled, giveAll_filter hhas, settled, trimmed_pendingStopWords]
    _ = d.trimmed.filled := hfilled'.symm

end Early

end Draft

end QueryGrammar
