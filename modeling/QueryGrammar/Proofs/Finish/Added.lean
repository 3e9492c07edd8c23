import QueryGrammar.Proofs.Finish.Again
/-!
Exactly which edits are added. A rule that is no edit calls for an insertion on each side that can
be supplied and for an exchange of its parts if that has a cost. A symbol gets what its rules call
for at the end of the rules it had, except for what it has by then, and the counts tell how much
was added.

Edits that are there are not added again. That all are there once they are added needs that each
compares equal to itself, which no rule with a cost that is no number would.
-/
namespace QueryGrammar

/-! ### What the rules of a symbol call for -/

namespace Rule

def isInsertion (r : Rule) : Bool :=
  match r.edit with
  | some (.insertion _) => true
  | _ => false

def isTransposition (r : Rule) : Bool :=
  match r.edit with
  | some (.transposition _) => true
  | _ => false

end Rule

namespace EditCounts

/-- The counts once the rules have been added too. -/
def counting (counts : EditCounts) (added : List Rule) : EditCounts :=
  { counts with
    insertions := counts.insertions + added.countP Rule.isInsertion
    transpositions := counts.transpositions + added.countP Rule.isTransposition }

theorem counting_counting (counts : EditCounts) (added further : List Rule) :
    (counts.counting added).counting further = counts.counting (added ++ further) := by
  simp [counting, Nat.add_assoc]

end EditCounts

namespace Draft

/-- The edits of the rules that a symbol `X` has in the draft, where none is an edit of an edit. A
part supplied on one side leaves the other to be read alone, which must not be `X` itself. -/
inductive CallsFor (d : Draft) (includeTrees : Bool) (X : SymbolId) : Rule → Prop
  | before {parent : Rule} {first second : SymbolId} {price : Option Float} {excluded : Excluded}
      {c : Candidate} (mem : parent ∈ d.rules X) (plain : parent.edit = none)
      (expansion : parent.expansion = .binary first second price excluded)
      (allowed : excluded.first = false) (supply : d.candidates.lookup first = some c)
      (other : second ≠ X) :
      CallsFor d includeTrees X
        { expansion := .unary second false
          semantic := parent.semantic
          features := parent.features
          insertionCost := none
          edit := some (.insertion ⟨c.cost, .before, c.text, c.semantic,
            if includeTrees then some c.tree else none⟩) }
  | after {parent : Rule} {first second : SymbolId} {price : Option Float} {excluded : Excluded}
      {c : Candidate} (mem : parent ∈ d.rules X) (plain : parent.edit = none)
      (expansion : parent.expansion = .binary first second price excluded)
      (allowed : excluded.second = false) (supply : d.candidates.lookup second = some c)
      (other : first ≠ X) :
      CallsFor d includeTrees X
        { expansion := .unary first false
          semantic := parent.semantic
          features := parent.features
          insertionCost := none
          edit := some (.insertion ⟨c.cost, .after, c.text, c.semantic,
            if includeTrees then some c.tree else none⟩) }
  | exchanged {parent : Rule} {first second : SymbolId} {price : Float} {excluded : Excluded}
      (mem : parent ∈ d.rules X) (plain : parent.edit = none)
      (expansion : parent.expansion = .binary first second (some price) excluded) :
      CallsFor d includeTrees X
        { expansion := .binary second first none ⟨excluded.second, excluded.first⟩
          semantic := parent.semantic
          features := parent.features
          insertionCost := none
          edit := some (.transposition price) }

/-- All edits that the rules of a symbol are tried for, in order. -/
def offers (d : Draft) (best : Candidates) (includeTrees : Bool) (X : SymbolId) : List Rule :=
  ((d.rules X).filter fun rule => !rule.isEdit).flatMap (editsOf best includeTrees X)

variable {d e : Draft} {best : Candidates} {includeTrees : Bool} {X : SymbolId} {r : Rule}

theorem mem_insertionOf?_iff {closed : Bool} {omitted kept : SymbolId} {position : Side}
    {parent : Rule} :
    r ∈ (insertionOf? best includeTrees X parent closed omitted kept position).toList ↔
      closed = false ∧ kept ≠ X ∧ ∃ c, best.lookup omitted = some c ∧
        insertionRule parent kept position c includeTrees = r := by
  unfold insertionOf?
  by_cases hclosed : closed = true
  · simp [hclosed]
  · by_cases hkept : kept = X
    · simp [hkept]
    · simp [hclosed, hkept]

theorem mem_offers_iff :
    r ∈ d.offers d.candidates includeTrees X ↔ d.CallsFor includeTrees X r := by
  simp only [offers, List.mem_flatMap, List.mem_filter]
  constructor
  · rintro ⟨parent, ⟨hmem, hplain⟩, hr⟩
    have hplain : parent.edit = none := by simpa [Rule.isEdit] using hplain
    rcases List.mem_append.mp hr with hr | hr
    · unfold insertionsOf at hr
      split at hr
      next first second price excluded hx =>
        rcases List.mem_append.mp hr with hr | hr
        · obtain ⟨hallowed, hother, c, hc, rfl⟩ := mem_insertionOf?_iff.mp hr
          exact .before hmem hplain hx hallowed hc hother
        · obtain ⟨hallowed, hother, c, hc, rfl⟩ := mem_insertionOf?_iff.mp hr
          exact .after hmem hplain hx hallowed hc hother
      next => simp at hr
    · obtain ⟨first, second, price, excluded, hx, rfl⟩ := mem_transpositionOf_cases hr
      exact .exchanged hmem hplain hx
  · intro h
    cases h with
    | @before parent first second price excluded c hmem hplain hx hallowed hc hother =>
      refine ⟨parent, ⟨hmem, by simp [Rule.isEdit, hplain]⟩, List.mem_append_left _ ?_⟩
      rw [insertionsOf, hx]
      exact List.mem_append_left _ (mem_insertionOf?_iff.mpr ⟨hallowed, hother, c, hc, rfl⟩)
    | @after parent first second price excluded c hmem hplain hx hallowed hc hother =>
      refine ⟨parent, ⟨hmem, by simp [Rule.isEdit, hplain]⟩, List.mem_append_left _ ?_⟩
      rw [insertionsOf, hx]
      exact List.mem_append_right _ (mem_insertionOf?_iff.mpr ⟨hallowed, hother, c, hc, rfl⟩)
    | @exchanged parent first second price excluded hmem hplain hx =>
      refine ⟨parent, ⟨hmem, by simp [Rule.isEdit, hplain]⟩, List.mem_append_right _ ?_⟩
      rw [transpositionOf?, hx]
      exact List.mem_singleton.mpr rfl

/-! ### Rules offered to one symbol -/

/-- What a symbol with the rules `old` adds of those offered to it: one after the other, each that
it does not have by then. -/
structure Accepted (old offered added : List Rule) : Prop where
  sublist : added.Sublist offered
  fresh : ∀ r ∈ added, old.contains r = false
  distinct : added.Pairwise fun q r => (r == q) = false
  complete : ∀ r ∈ offered, r ∈ added ∨ (old ++ added).contains r = true

variable {old offered more added further : List Rule}

theorem accepted_nil : Accepted old [] [] where
  sublist := .slnil
  fresh := by simp
  distinct := .nil
  complete := by simp

theorem Accepted.append (h : Accepted old offered added)
    (hmore : Accepted (old ++ added) more further) :
    Accepted old (offered ++ more) (added ++ further) where
  sublist := h.sublist.append hmore.sublist
  fresh r hr := by
    rcases List.mem_append.mp hr with hr | hr
    · exact h.fresh r hr
    · have hfresh := hmore.fresh r hr
      rw [List.contains_append, Bool.or_eq_false_iff] at hfresh
      exact hfresh.1
  distinct := by
    refine List.pairwise_append.mpr ⟨h.distinct, hmore.distinct, fun q hq r hr => ?_⟩
    have hfresh := hmore.fresh r hr
    rw [List.contains_append, Bool.or_eq_false_iff] at hfresh
    have hany : (added.any fun q => r == q) = false :=
      List.contains_eq_any_beq.symm.trans hfresh.2
    exact Bool.eq_false_of_not_eq_true (List.any_eq_false.mp hany q hq)
  complete r hr := by
    rw [← List.append_assoc]
    rcases List.mem_append.mp hr with hr | hr
    · rcases h.complete r hr with hin | hcontains
      · exact Or.inl (List.mem_append_left _ hin)
      · exact Or.inr (by rw [List.contains_append, hcontains]; rfl)
    · rcases hmore.complete r hr with hin | hcontains
      · exact Or.inl (List.mem_append_right _ hin)
      · exact Or.inr hcontains

theorem accepted_one (old : List Rule) (r : Rule) :
    Accepted old [r] (if old.contains r then [] else [r]) := by
  by_cases hold : old.contains r = true
  · rw [if_pos hold]
    exact ⟨by simp, by simp, .nil, by simp [hold]⟩
  · rw [if_neg hold]
    exact ⟨.refl _, by simpa using hold, List.pairwise_singleton _ r, by simp⟩

/-! ### Rules at the ends of the symbols -/

/-- The draft with rules appended to those of its symbols. -/
def withRules (d : Draft) (added : SymbolId → List Rule) : Draft :=
  { d with symbols := d.symbols.mapIdx fun i s => { s with rules := s.rules ++ added ⟨i⟩ } }

/-- Rules for one symbol. -/
def only (X : SymbolId) (rules : List Rule) (Y : SymbolId) : List Rule :=
  if Y = X then rules else []

theorem withRules_nil (d : Draft) : d.withRules (fun _ => []) = d := by
  have hsymbols : d.symbols.mapIdx (fun _ s => { s with rules := s.rules ++ [] }) = d.symbols := by
    apply List.ext_getElem?
    intro i
    rw [List.getElem?_mapIdx]
    cases d.symbols[i]? with
    | none => rfl
    | some s => simp
  rw [withRules, hsymbols]

theorem only_nil (X : SymbolId) : only X [] = fun _ => [] := by
  funext Y
  simp [only]

theorem withRules_withRules (d : Draft) (f g : SymbolId → List Rule) :
    (d.withRules f).withRules g = d.withRules fun X => f X ++ g X := by
  simp [withRules, List.mapIdx_mapIdx, Function.comp_def]

theorem addsRules_withRules {P : SymbolId → Rule → Prop} {f : SymbolId → List Rule}
    (h : ∀ X, ∀ r ∈ f X, P X r) : AddsRules P d (d.withRules f) where
  content id s hs := ⟨f id, by simp [withRules, hs], h id⟩
  length_eq := by simp [withRules]
  rest := rfl

theorem liveSymbols_withRules (f : SymbolId → List Rule) :
    (d.withRules f).liveSymbols = d.liveSymbols :=
  (addsRules_withRules (P := fun _ _ => True) fun _ _ _ => trivial).liveSymbols_eq

theorem rules_withRules {f : SymbolId → List Rule} (hX : X ∈ d.liveSymbols) :
    (d.withRules f).rules X = d.rules X ++ f X := by
  obtain ⟨s, hs⟩ := mem_liveSymbols_iff.mp hX
  obtain ⟨hat, hpruned⟩ := get?_eq_some_iff.mp hs
  have hget : (d.withRules f).get? X = some { s with rules := s.rules ++ f X } :=
    get?_eq_some_iff.mpr ⟨by simp [withRules, hat], hpruned⟩
  rw [rules_of_get? hget, rules_of_get? hs]

theorem appendRule_eq_withRules (d : Draft) (X : SymbolId) (r : Rule) :
    d.appendRule X r = d.withRules (only X (if (d.rules X).contains r then [] else [r])) := by
  by_cases hhas : (d.rules X).contains r = true
  · rw [appendRule, if_neg (by simp [lacks, hhas]), if_pos hhas, only_nil, withRules_nil]
  · rw [appendRule, if_pos (by simpa [lacks] using hhas), if_neg hhas]
    have hsymbols : d.symbols.modify X.index (fun s => { s with rules := s.rules ++ [r] }) =
        d.symbols.mapIdx fun i s => { s with rules := s.rules ++ only X [r] ⟨i⟩ } := by
      apply List.ext_getElem?
      intro i
      rw [List.getElem?_modify, List.getElem?_mapIdx]
      by_cases hi : X.index = i
      · subst hi
        simp [only]
      · have hne : (⟨i⟩ : SymbolId) ≠ X := fun h => hi (congrArg SymbolId.index h).symm
        simp [only, hi, hne]
    rw [modifySymbol, hsymbols]
    rfl

theorem only_append (X : SymbolId) (rules more : List Rule) :
    (fun Y => only X rules Y ++ only X more Y) = only X (rules ++ more) := by
  funext Y
  by_cases hY : Y = X
  · simp [only, hY]
  · simp [only, hY]

/-- What is pushed goes to the end of the symbol's rules, as far as it is new, and is counted. -/
theorem pushAll_eq (hX : X ∈ d.liveSymbols) (offered : List Rule) :
    ∃ added, Accepted (d.rules X) offered added ∧
      pushAll X offered d = (added.length, d.withRules (only X added)) := by
  induction offered generalizing d with
  | nil => exact ⟨[], accepted_nil, by rw [only_nil, withRules_nil, pushAll]; rfl⟩
  | cons r offered ih =>
    have hone := accepted_one (d.rules X) r
    have happend := d.appendRule_eq_withRules X r
    have hlength : (if (d.rules X).contains r then [] else [r]).length =
        if d.lacks X r then 1 else 0 := by
      by_cases hhas : (d.rules X).contains r = true
      · simp [lacks, hhas]
      · simp [lacks, hhas]
    generalize (if (d.rules X).contains r then [] else [r]) = first at hone happend hlength
    have hlive : X ∈ (d.appendRule X r).liveSymbols := by
      rw [happend, liveSymbols_withRules]
      exact hX
    obtain ⟨added, haccepted, hpush⟩ := ih hlive
    rw [happend, rules_withRules hX, only, if_pos rfl] at haccepted
    refine ⟨first ++ added, hone.append haccepted, ?_⟩
    rw [pushAll, hpush]
    refine Prod.ext ?_ ?_
    · by_cases hlacks : d.lacks X r = true
      · rw [if_pos hlacks] at hlength
        simp [hlacks, hlength, Nat.add_comm]
      · rw [if_neg hlacks] at hlength
        simp [hlacks, hlength]
    · rw [happend, withRules_withRules, only_append]

/-! ### The edits of all symbols -/

theorem isInsertion_of_mem {parent : Rule} (h : r ∈ insertionsOf best includeTrees X parent) :
    r.isInsertion = true ∧ r.isTransposition = false := by
  obtain ⟨_, _, _, _, c, -, ⟨-, -, rfl⟩ | ⟨-, -, rfl⟩⟩ := mem_insertionsOf_cases h
  · exact ⟨rfl, rfl⟩
  · exact ⟨rfl, rfl⟩

theorem isTransposition_of_mem {parent : Rule} (h : r ∈ (transpositionOf? parent).toList) :
    r.isInsertion = false ∧ r.isTransposition = true := by
  obtain ⟨_, _, _, _, -, rfl⟩ := mem_transpositionOf_cases h
  exact ⟨rfl, rfl⟩

/-- The edits of one rule are added as they are offered, the insertions first. -/
theorem addEdits_eq (best : Candidates) (includeTrees : Bool) (hX : X ∈ d.liveSymbols)
    (counts : EditCounts) (parent : Rule) :
    ∃ added, Accepted (d.rules X) (editsOf best includeTrees X parent) added ∧
      addEdits best includeTrees X (counts, d) parent =
        (counts.counting added, d.withRules (only X added)) := by
  obtain ⟨inserted, hinserted, hfirst⟩ := pushAll_eq hX (insertionsOf best includeTrees X parent)
  have hlive : X ∈ (d.withRules (only X inserted)).liveSymbols := by
    rw [liveSymbols_withRules]
    exact hX
  obtain ⟨exchanged, hexchanged, hsecond⟩ := pushAll_eq hlive (transpositionOf? parent).toList
  rw [rules_withRules hX, only, if_pos rfl] at hexchanged
  refine ⟨inserted ++ exchanged, hinserted.append hexchanged, ?_⟩
  have hinsertions : ∀ r ∈ inserted, r.isInsertion = true ∧ r.isTransposition = false :=
    fun r hr => isInsertion_of_mem (hinserted.sublist.subset hr)
  have htranspositions : ∀ r ∈ exchanged, r.isInsertion = false ∧ r.isTransposition = true :=
    fun r hr => isTransposition_of_mem (hexchanged.sublist.subset hr)
  have hcounts : counts.counting (inserted ++ exchanged) =
      { counts with
        insertions := counts.insertions + inserted.length
        transpositions := counts.transpositions + exchanged.length } := by
    rw [EditCounts.counting, List.countP_append, List.countP_append,
      List.countP_eq_length.mpr fun r hr => (hinsertions r hr).1,
      List.countP_eq_zero.mpr fun r hr => by simp [(htranspositions r hr).1],
      List.countP_eq_zero.mpr fun r hr => by simp [(hinsertions r hr).2],
      List.countP_eq_length.mpr fun r hr => (htranspositions r hr).2]
    simp
  rw [hcounts, ← only_append, ← withRules_withRules]
  simp only [addEdits, hfirst, hsecond]

theorem foldl_addEdits_eq (best : Candidates) (includeTrees : Bool) (hX : X ∈ d.liveSymbols)
    (counts : EditCounts) (parents : List Rule) :
    ∃ added, Accepted (d.rules X) (parents.flatMap (editsOf best includeTrees X)) added ∧
      parents.foldl (addEdits best includeTrees X) (counts, d) =
        (counts.counting added, d.withRules (only X added)) := by
  induction parents generalizing counts d with
  | nil => exact ⟨[], accepted_nil, by rw [only_nil, withRules_nil]; rfl⟩
  | cons parent parents ih =>
    obtain ⟨first, hfirst, hone⟩ := addEdits_eq best includeTrees hX counts parent
    have hlive : X ∈ (d.withRules (only X first)).liveSymbols := by
      rw [liveSymbols_withRules]
      exact hX
    obtain ⟨added, hadded, hrest⟩ := ih hlive (counts.counting first)
    rw [rules_withRules hX, only, if_pos rfl] at hadded
    refine ⟨first ++ added, hfirst.append hadded, ?_⟩
    rw [List.foldl_cons, hone, hrest, EditCounts.counting_counting, withRules_withRules, only_append]

/-- A symbol takes its parents from the draft before, whatever was added to the others. -/
theorem foldl_addEditsOf_eq (best : Candidates) (includeTrees : Bool) {ids : List SymbolId}
    (hids : ids.Nodup) (hlive : ids ⊆ d.liveSymbols) (counts : EditCounts) :
    ∃ added : SymbolId → List Rule, (∀ X, X ∉ ids → added X = []) ∧
      (∀ X ∈ ids, Accepted (d.rules X) (d.offers best includeTrees X) (added X)) ∧
      ids.foldl (addEditsOf best includeTrees) (counts, d) =
        (counts.counting (ids.flatMap added), d.withRules added) := by
  induction ids generalizing counts d with
  | nil => exact ⟨fun _ => [], by simp, by simp, by simp [EditCounts.counting, withRules_nil]⟩
  | cons X ids ih =>
    obtain ⟨hfresh, hids⟩ := List.nodup_cons.mp hids
    have hX : X ∈ d.liveSymbols := hlive List.mem_cons_self
    obtain ⟨first, hfirst, hone⟩ := foldl_addEdits_eq best includeTrees hX counts
      ((d.rules X).filter fun rule => !rule.isEdit)
    have hothers : ∀ Y ∈ ids, (d.withRules (only X first)).rules Y = d.rules Y := by
      intro Y hY
      have hne : Y ≠ X := fun h => hfresh (h ▸ hY)
      rw [rules_withRules (hlive (List.mem_cons_of_mem X hY)), only, if_neg hne, List.append_nil]
    have hrestlive : ids ⊆ (d.withRules (only X first)).liveSymbols := by
      rw [liveSymbols_withRules]
      exact fun Y hY => hlive (List.mem_cons_of_mem X hY)
    obtain ⟨added, hnone, hadded, hrest⟩ := ih hids hrestlive (counts.counting first)
    have hat : ∀ Y ∈ ids, only X first Y ++ added Y = added Y := by
      intro Y hY
      have hne : Y ≠ X := fun h => hfresh (h ▸ hY)
      rw [only, if_neg hne, List.nil_append]
    refine ⟨fun Y => only X first Y ++ added Y, ?_, ?_, ?_⟩
    · intro Y hY
      obtain ⟨hne, hY⟩ := not_or.mp (mt List.mem_cons.mpr hY)
      simp [only, hne, hnone Y hY]
    · intro Y hY
      rcases List.mem_cons.mp hY with rfl | hY
      · simpa [only, hnone Y hfresh, offers] using hfirst
      · have hY' := hadded Y hY
        rw [offers, hothers Y hY, ← hat Y hY] at hY'
        exact hY'
    · have hflat : (X :: ids).flatMap (fun Y => only X first Y ++ added Y) =
          first ++ ids.flatMap added := by
        rw [List.flatMap_cons, only, if_pos rfl, hnone X hfresh, List.append_nil]
        congr 1
        exact List.flatMap_congr hat
      rw [hflat, ← EditCounts.counting_counting, ← withRules_withRules, ← hrest, List.foldl_cons]
      rw [show addEditsOf best includeTrees (counts, d) X = _ from hone]

/-! ### How many symbols can be supplied -/

theorem nodup_keys_improveBy {state : Candidates × Bool} (h : (state.1.map Prod.fst).Nodup)
    (X : SymbolId) (r : Rule) : ((d.improveBy X state r).1.map Prod.fst).Nodup := by
  unfold improveBy
  split
  · exact h
  · split
    · exact h
    · split
      · exact Candidates.nodup_put h
      · exact h

theorem nodup_keys_candidates (d : Draft) : (d.candidates.map Prod.fst).Nodup := by
  have hrules : ∀ (X : SymbolId) (rules : List Rule) (state : Candidates × Bool),
      (state.1.map Prod.fst).Nodup → ((rules.foldl (d.improveBy X) state).1.map Prod.fst).Nodup := by
    intro X rules
    induction rules with
    | nil => exact fun _ h => h
    | cons r rules ih => exact fun state h => ih _ (nodup_keys_improveBy h X r)
  have hpass : ∀ best : Candidates, (best.map Prod.fst).Nodup →
      ((d.improve best).1.map Prod.fst).Nodup := by
    unfold improve
    generalize d.liveSymbols = ids
    suffices ∀ state : Candidates × Bool, (state.1.map Prod.fst).Nodup →
        ((ids.foldl (fun state id => (d.rules id).foldl (d.improveBy id) state) state).1.map
          Prod.fst).Nodup from fun best h => this (best, false) h
    induction ids with
    | nil => exact fun _ h => h
    | cons X ids ih => exact fun state h => ih _ (hrules X (d.rules X) state h)
  have hrounds : ∀ (rounds : Nat) (best : Candidates), (best.map Prod.fst).Nodup →
      ((d.improveRounds rounds best).map Prod.fst).Nodup := by
    intro rounds
    induction rounds with
    | zero => exact fun _ h => h
    | succ rounds ih =>
      intro best h
      unfold improveRounds
      dsimp only
      split
      · exact ih _ (hpass best h)
      · exact hpass best h
  exact hrounds _ [] .nil

theorem Supplied.live {c : Candidate} (h : d.Supplied X c) : X ∈ d.liveSymbols := by
  cases h with
  | lexical hrule => exact live_of_mem_rules hrule
  | unary hrule => exact live_of_mem_rules hrule
  | binary hrule => exact live_of_mem_rules hrule

/-- The candidates are as many as the live symbols that have one. -/
theorem length_candidates (d : Draft) :
    d.candidates.length =
      (d.liveSymbols.filter fun X => (d.candidates.lookup X).isSome).length := by
  rw [← List.length_map (f := Prod.fst)]
  refine List.Perm.length_eq ?_
  refine (List.perm_ext_iff_of_nodup d.nodup_keys_candidates
    (d.nodup_liveSymbols.filter _)).mpr fun X => ?_
  rw [List.mem_filter]
  constructor
  · intro hX
    obtain ⟨p, hp, rfl⟩ := List.mem_map.mp hX
    refine ⟨(d.sourced_candidates p hp).live, ?_⟩
    rw [Option.isSome_iff_ne_none]
    intro hnone
    simpa using List.lookup_eq_none_iff.mp hnone p hp
  · rintro ⟨-, hsome⟩
    obtain ⟨c, hc⟩ := Option.isSome_iff_exists.mp hsome
    obtain ⟨before, after, hlist, -⟩ := List.lookup_eq_some_iff.mp hc
    exact List.mem_map.mpr ⟨(X, c), by simp [hlist], rfl⟩

/-! ### All edits -/

/-- What is added is what the symbols are offered, as far as it is new, and it is counted. -/
theorem exists_withEdits_eq (d : Draft) (includeTrees : Bool) :
    ∃ added : SymbolId → List Rule, (∀ X, X ∉ d.liveSymbols → added X = []) ∧
      (∀ X ∈ d.liveSymbols,
        Accepted (d.rules X) (d.offers d.candidates includeTrees X) (added X)) ∧
      d.withEdits includeTrees =
        (EditCounts.counting { insertable := d.candidates.length } (d.liveSymbols.flatMap added),
          d.withRules added) :=
  foldl_addEditsOf_eq d.candidates includeTrees d.nodup_liveSymbols (List.Subset.refl _) _

/-- Every symbol keeps its rules and gets after them what they call for: each rule once, and none
that it had. Nothing else of the draft changes. -/
theorem withEdits_adds_exactly (d : Draft) (includeTrees : Bool) :
    ∃ added : SymbolId → List Rule,
      (d.withEdits includeTrees).2 = d.withRules added ∧
      (d.withEdits includeTrees).2.liveSymbols = d.liveSymbols ∧
      (∀ X, X ∉ d.liveSymbols → added X = []) ∧
      (∀ X ∈ d.liveSymbols,
        (d.withEdits includeTrees).2.rules X = d.rules X ++ added X ∧
        (∀ r ∈ added X, d.CallsFor includeTrees X r ∧ (d.rules X).contains r = false) ∧
        (added X).Pairwise (fun q r => (r == q) = false) ∧
        ∀ r, d.CallsFor includeTrees X r →
          r ∈ added X ∨ ((d.withEdits includeTrees).2.rules X).contains r = true) ∧
      (d.withEdits includeTrees).1 =
        { insertable := (d.liveSymbols.filter fun X => (d.candidates.lookup X).isSome).length
          insertions := (d.liveSymbols.flatMap added).countP Rule.isInsertion
          transpositions := (d.liveSymbols.flatMap added).countP Rule.isTransposition } := by
  obtain ⟨added, hnone, hadded, hedits⟩ := d.exists_withEdits_eq includeTrees
  refine ⟨added, by rw [hedits], by rw [hedits, liveSymbols_withRules], hnone, ?_, ?_⟩
  · intro X hX
    have haccepted := hadded X hX
    have hrules : (d.withEdits includeTrees).2.rules X = d.rules X ++ added X := by
      rw [hedits, rules_withRules hX]
    refine ⟨hrules, fun r hr => ⟨?_, haccepted.fresh r hr⟩, haccepted.distinct, fun r hr => ?_⟩
    · exact mem_offers_iff.mp (haccepted.sublist.subset hr)
    · rw [hrules]
      exact haccepted.complete r (mem_offers_iff.mpr hr)
  · rw [hedits, length_candidates]
    simp [EditCounts.counting]

/-! ### Edits that are there -/

/-- The draft has every edit that its rules give rise to. -/
def HasEdits (d : Draft) (best : Candidates) (includeTrees : Bool) : Prop :=
  ∀ X, ∀ parent ∈ d.rules X, parent.isEdit = false →
    ∀ r ∈ editsOf best includeTrees X parent, d.lacks X r = false

theorem Accepted.contains (h : Accepted old offered added) (hr : r ∈ offered)
    (hself : (r == r) = true) : (old ++ added).contains r = true := by
  rcases h.complete r hr with hin | hcontains
  · rw [List.contains_eq_any_beq]
    exact List.any_eq_true.mpr ⟨r, List.mem_append_right _ hin, hself⟩
  · exact hcontains

/-- Once all edits are added they are there, given that each compares equal to itself. -/
theorem hasEdits_withEdits (hself : ∀ X, ∀ parent ∈ d.rules X,
      ∀ r ∈ editsOf d.candidates includeTrees X parent, (r == r) = true) :
    (d.withEdits includeTrees).2.HasEdits d.candidates includeTrees := by
  obtain ⟨added, -, hadded, hedits⟩ := d.exists_withEdits_eq includeTrees
  rw [hedits]
  intro X parent hparent hplain r hr
  have hX : X ∈ d.liveSymbols := by
    rw [← liveSymbols_withRules added]
    exact live_of_mem_rules hparent
  have haccepted := hadded X hX
  rw [rules_withRules hX] at hparent
  -- an edit is no parent, so the parent is one of the rules from before
  have hold : parent ∈ d.rules X := by
    rcases List.mem_append.mp hparent with hparent | hparent
    · exact hparent
    · obtain ⟨origin, -, hmem⟩ := List.mem_flatMap.mp (haccepted.sublist.subset hparent)
      rw [isEdit_of_mem_editsOf hmem] at hplain
      cases hplain
  have hoffered : r ∈ d.offers d.candidates includeTrees X :=
    List.mem_flatMap.mpr ⟨parent, List.mem_filter.mpr ⟨hold, by simp [hplain]⟩, hr⟩
  have hcontains := haccepted.contains hoffered (hself X parent hold r hr)
  simp only [lacks, rules_withRules hX, hcontains, Bool.not_true]

/-- Edits that are there are not added again. -/
theorem withEdits_of_has (h : d.HasEdits d.candidates includeTrees) :
    d.withEdits includeTrees = ({ insertable := d.candidates.length }, d) := by
  obtain ⟨added, hnone, hadded, hedits⟩ := d.exists_withEdits_eq includeTrees
  have hnothing : added = fun _ => [] := by
    funext X
    by_cases hX : X ∈ d.liveSymbols
    · apply List.eq_nil_iff_forall_not_mem.mpr
      intro r hr
      obtain ⟨parent, hparent, hmem⟩ := List.mem_flatMap.mp ((hadded X hX).sublist.subset hr)
      obtain ⟨hrule, hplain⟩ := List.mem_filter.mp hparent
      have hhas := h X parent hrule (by simpa using hplain) r hmem
      have hfresh := (hadded X hX).fresh r hr
      simp [lacks, hfresh] at hhas
    · exact hnone X hX
  rw [hedits, hnothing, withRules_nil]
  simp [EditCounts.counting]

theorem insertable_withEdits (d : Draft) (includeTrees : Bool) :
    (d.withEdits includeTrees).1.insertable = d.candidates.length := by
  obtain ⟨added, -, -, hedits⟩ := d.exists_withEdits_eq includeTrees
  rw [hedits]
  rfl

end Draft

end QueryGrammar
