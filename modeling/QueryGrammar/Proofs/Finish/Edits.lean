import QueryGrammar.Finish.Edits
import QueryGrammar.Proofs.Draft.Sound
/-!
Edits are only added. Each comes from one rule of its symbol that is no edit itself, and nothing
else of a draft changes, so the rules that are no edits stay as they were.
-/
namespace QueryGrammar.Draft

/-- `e` is `d` with rules added at the ends, each with the property at its symbol. -/
structure AddsRules (P : SymbolId → Rule → Prop) (d e : Draft) : Prop where
  content : ∀ (id : SymbolId) s, d.symbols[id.index]? = some s →
    ∃ added, e.symbols[id.index]? = some { s with rules := s.rules ++ added } ∧
      ∀ r ∈ added, P id r
  length_eq : e.symbols.length = d.symbols.length
  rest : e = { d with symbols := e.symbols }

variable {P : SymbolId → Rule → Prop} {d e f : Draft}

theorem AddsRules.refl (P : SymbolId → Rule → Prop) (d : Draft) : AddsRules P d d where
  content id s hs := ⟨[], by simpa using hs, by simp⟩
  length_eq := rfl
  rest := rfl

theorem AddsRules.trans (hde : AddsRules P d e) (hef : AddsRules P e f) : AddsRules P d f where
  content id s hs := by
    obtain ⟨added, he, hadded⟩ := hde.content id s hs
    obtain ⟨more, hf, hmore⟩ := hef.content id _ he
    refine ⟨added ++ more, by simpa using hf, fun r hr => ?_⟩
    rcases List.mem_append.mp hr with hr | hr
    · exact hadded r hr
    · exact hmore r hr
  length_eq := hef.length_eq.trans hde.length_eq
  rest := by rw [hef.rest, hde.rest]

theorem addsRules_appendRule {id : SymbolId} {r : Rule} (hr : P id r) :
    AddsRules P d (d.appendRule id r) := by
  unfold appendRule
  split
  · constructor
    · intro X s hs
      by_cases hX : id.index = X.index
      · obtain rfl : id = X := by
          cases id
          cases X
          exact congrArg SymbolId.mk hX
        exact ⟨[r], by simp [modifySymbol, hs], by simpa using hr⟩
      · exact ⟨[], by simp [modifySymbol, hs, hX], by simp⟩
    · simp [modifySymbol]
    · rfl
  · exact .refl P d

theorem rest_appendRule (d : Draft) (X : SymbolId) (r : Rule) :
    d.appendRule X r = { d with symbols := (d.appendRule X r).symbols } :=
  (addsRules_appendRule (P := fun _ _ => True) trivial).rest

theorem addsRules_pushAll {id : SymbolId} {rules : List Rule} (h : ∀ r ∈ rules, P id r)
    (d : Draft) : AddsRules P d (pushAll id rules d).2 := by
  induction rules generalizing d with
  | nil => exact .refl P d
  | cons r rules ih =>
    have hrest := ih (fun q hq => h q (List.mem_cons_of_mem _ hq)) (d.appendRule id r)
    exact (addsRules_appendRule (h r (by simp))).trans hrest

theorem AddsRules.get? (h : AddsRules P d e) (id : SymbolId) :
    (d.get? id = none ∧ e.get? id = none) ∨
      ∃ s added, d.get? id = some s ∧ e.get? id = some { s with rules := s.rules ++ added } ∧
        ∀ r ∈ added, P id r := by
  cases hs : d.symbols[id.index]? with
  | none =>
    have hlength : d.symbols.length ≤ id.index := List.getElem?_eq_none_iff.mp hs
    have he : e.symbols[id.index]? = none :=
      List.getElem?_eq_none_iff.mpr (h.length_eq ▸ hlength)
    exact Or.inl ⟨by simp [Draft.get?, hs], by simp [Draft.get?, he]⟩
  | some s =>
    obtain ⟨added, he, hadded⟩ := h.content id s hs
    cases hp : s.pruned with
    | true => exact Or.inl ⟨by simp [Draft.get?, hs, hp], by simp [Draft.get?, he, hp]⟩
    | false =>
      exact Or.inr ⟨s, added, get?_eq_some_iff.mpr ⟨hs, hp⟩, get?_eq_some_iff.mpr ⟨he, hp⟩,
        hadded⟩

theorem AddsRules.mem_liveSymbols_iff (h : AddsRules P d e) {id : SymbolId} :
    id ∈ e.liveSymbols ↔ id ∈ d.liveSymbols := by
  rw [Draft.mem_liveSymbols_iff, Draft.mem_liveSymbols_iff]
  rcases h.get? id with ⟨hd, he⟩ | ⟨s, added, hd, he, -⟩
  · simp [hd, he]
  · simp [hd, he]

/-- The rules of a symbol are those from before and added ones. -/
theorem AddsRules.rules (h : AddsRules P d e) (id : SymbolId) :
    ∃ added, e.rules id = d.rules id ++ added ∧ ∀ r ∈ added, P id r := by
  rcases h.get? id with ⟨hd, he⟩ | ⟨s, added, hd, he, hadded⟩
  · exact ⟨[], by simp [Draft.rules, hd, he], by simp⟩
  · exact ⟨added, by rw [rules_of_get? hd, rules_of_get? he], hadded⟩

theorem AddsRules.symbolName_eq (h : AddsRules P d e) (id : SymbolId) :
    e.symbolName id = d.symbolName id := by
  unfold symbolName
  cases hs : d.symbols[id.index]? with
  | none =>
    have hlength : d.symbols.length ≤ id.index := List.getElem?_eq_none_iff.mp hs
    rw [List.getElem?_eq_none_iff.mpr (h.length_eq ▸ hlength)]
  | some s =>
    obtain ⟨added, he, -⟩ := h.content id s hs
    rw [he]

/-- Whatever of a symbol does not look at its rules is as before. -/
theorem AddsRules.map_symbols {α : Type} {f : Symbol → α} (h : AddsRules P d e)
    (hf : ∀ s rules, f { s with rules := rules } = f s) :
    e.symbols.map f = d.symbols.map f := by
  apply List.ext_getElem?
  intro i
  rw [List.getElem?_map, List.getElem?_map]
  cases hs : d.symbols[i]? with
  | none =>
    have hlength : d.symbols.length ≤ i := List.getElem?_eq_none_iff.mp hs
    rw [List.getElem?_eq_none_iff.mpr (h.length_eq ▸ hlength)]
  | some s =>
    obtain ⟨added, he, -⟩ := h.content ⟨i⟩ s hs
    rw [he]
    exact congrArg some (hf s _)

theorem AddsRules.names (h : AddsRules P d e) :
    e.symbols.map (·.name) = d.symbols.map (·.name) :=
  h.map_symbols fun _ _ => rfl

/-! ### Edits of a draft -/

/-- The rules that a rule of a symbol gives rise to. -/
def editsOf (best : Candidates) (includeTrees : Bool) (id : SymbolId) (rule : Rule) : List Rule :=
  insertionsOf best includeTrees id rule ++ (transpositionOf? rule).toList

/-- The rule is an edit of one that the symbol has in `d` and that is no edit. -/
def EditFor (d : Draft) (best : Candidates) (includeTrees : Bool) (id : SymbolId) (rule : Rule) :
    Prop :=
  rule.isEdit = true ∧
    ∃ parent ∈ d.rules id, parent.isEdit = false ∧ rule ∈ editsOf best includeTrees id parent

variable {best : Candidates} {includeTrees : Bool}

/-- An insertion reads one part of a binary rule alone, where the other is not closed to insertion
and has something to be supplied with. -/
theorem mem_insertionsOf_cases {id : SymbolId} {parent r : Rule}
    (h : r ∈ insertionsOf best includeTrees id parent) :
    ∃ first second cost excluded c, parent.expansion = .binary first second cost excluded ∧
      ((excluded.first = false ∧ best.lookup first = some c ∧
          r = insertionRule parent second .before c includeTrees) ∨
        (excluded.second = false ∧ best.lookup second = some c ∧
          r = insertionRule parent first .after c includeTrees)) := by
  have hone : ∀ {closed : Bool} {omitted kept : SymbolId} {position : Side},
      r ∈ (insertionOf? best includeTrees id parent closed omitted kept position).toList →
        ∃ c, closed = false ∧ best.lookup omitted = some c ∧
          r = insertionRule parent kept position c includeTrees := by
    intro closed omitted kept position hr
    unfold insertionOf? at hr
    split at hr
    · simp at hr
    next hallowed =>
      obtain ⟨c, hc, heq⟩ := Option.map_eq_some_iff.mp (Option.mem_toList.mp hr)
      cases closed
      · exact ⟨c, rfl, hc, heq.symm⟩
      · simp at hallowed
  unfold insertionsOf at h
  split at h
  next first second cost excluded hx =>
    rcases List.mem_append.mp h with h | h
    · obtain ⟨c, hbefore⟩ := hone h
      exact ⟨first, second, cost, excluded, c, hx, Or.inl hbefore⟩
    · obtain ⟨c, hafter⟩ := hone h
      exact ⟨first, second, cost, excluded, c, hx, Or.inr hafter⟩
  next => simp at h

/-- A transposition reads the parts of a binary rule exchanged, at the cost that the rule has. -/
theorem mem_transpositionOf_cases {parent r : Rule} (h : r ∈ (transpositionOf? parent).toList) :
    ∃ first second price excluded, parent.expansion = .binary first second (some price) excluded ∧
      r = { expansion := .binary second first none excluded.swap
            semantic := parent.semantic
            features := parent.features
            edit := some (.transposition price) } := by
  unfold transpositionOf? at h
  split at h
  next first second price excluded hx =>
    exact ⟨first, second, price, excluded, hx, List.mem_singleton.mp h⟩
  next => simp at h

theorem isEdit_of_mem_editsOf {id : SymbolId} {parent r : Rule}
    (h : r ∈ editsOf best includeTrees id parent) : r.isEdit = true := by
  rcases List.mem_append.mp h with h | h
  · obtain ⟨_, _, _, _, c, -, ⟨-, -, rfl⟩ | ⟨-, -, rfl⟩⟩ := mem_insertionsOf_cases h
    · rfl
    · rfl
  · obtain ⟨_, _, _, _, -, rfl⟩ := mem_transpositionOf_cases h
    rfl

theorem addsRules_addEdits {id : SymbolId} {parent : Rule} (hparent : parent ∈ d.rules id)
    (hplain : parent.isEdit = false) (state : EditCounts × Draft) :
    AddsRules (d.EditFor best includeTrees) state.2
      (addEdits best includeTrees id state parent).2 := by
  have hedits : ∀ r ∈ editsOf best includeTrees id parent, d.EditFor best includeTrees id r :=
    fun r hr => ⟨isEdit_of_mem_editsOf hr, parent, hparent, hplain, hr⟩
  exact (addsRules_pushAll (fun r hr => hedits r (List.mem_append_left _ hr)) state.2).trans
    (addsRules_pushAll (fun r hr => hedits r (List.mem_append_right _ hr)) _)

/-- Edits already added are no origin of others. -/
theorem AddsRules.addEditsOf {state : EditCounts × Draft}
    (h : AddsRules (d.EditFor best includeTrees) d state.2) (id : SymbolId) :
    AddsRules (d.EditFor best includeTrees) d (addEditsOf best includeTrees state id).2 := by
  have hparents : ∀ parent ∈ (state.2.rules id).filter fun rule => !rule.isEdit,
      parent ∈ d.rules id ∧ parent.isEdit = false := by
    intro parent hmem
    obtain ⟨added, hrules, hadded⟩ := h.rules id
    rw [hrules, List.mem_filter, List.mem_append] at hmem
    obtain ⟨hparent | hparent, hplain⟩ := hmem
    · exact ⟨hparent, by simpa using hplain⟩
    · simp [(hadded parent hparent).1] at hplain
  unfold Draft.addEditsOf
  generalize (state.2.rules id).filter (fun rule => !rule.isEdit) = parents at hparents
  induction parents generalizing state with
  | nil => exact h
  | cons parent parents ih =>
    obtain ⟨hmem, hplain⟩ := hparents parent (by simp)
    exact ih (h.trans (addsRules_addEdits hmem hplain state)) fun q hq =>
      hparents q (List.mem_cons_of_mem _ hq)

theorem addsRules_withEdits (d : Draft) (includeTrees : Bool) :
    AddsRules (d.EditFor d.candidates includeTrees) d (d.withEdits includeTrees).2 := by
  unfold withEdits
  suffices ∀ (ids : List SymbolId) (state : EditCounts × Draft),
      AddsRules (d.EditFor d.candidates includeTrees) d state.2 →
        AddsRules (d.EditFor d.candidates includeTrees) d
          (ids.foldl (Draft.addEditsOf d.candidates includeTrees) state).2 from
    this d.liveSymbols _ (.refl _ d)
  intro ids
  induction ids with
  | nil => exact fun _ h => h
  | cons id ids ih => exact fun state h => ih _ (h.addEditsOf id)

/-- Where no rule was an edit, the rules that are none are those from before. -/
theorem mem_rules_withEdits_iff (hd : ∀ X, ∀ r ∈ d.rules X, r.edit = none) {X : SymbolId}
    {r : Rule} : (r ∈ (d.withEdits includeTrees).2.rules X ∧ r.edit = none) ↔ r ∈ d.rules X := by
  obtain ⟨added, hrules, hadded⟩ := (d.addsRules_withEdits includeTrees).rules X
  rw [hrules, List.mem_append]
  constructor
  · rintro ⟨hr | hr, hedit⟩
    · exact hr
    · have hisEdit := (hadded r hr).1
      simp [Rule.isEdit, hedit] at hisEdit
  · exact fun hr => ⟨Or.inl hr, hd X r hr⟩

end QueryGrammar.Draft
