import QueryGrammar.Proofs.Draft.Enlarged
import QueryGrammar.Proofs.Finish.Added
/-!
Drafts as tables: symbols, and rows that give rules to them. What is registered adds a symbol at the
end or a row, so that after many calls it is still known which symbols and which rules there are.
-/
namespace QueryGrammar

namespace Symbol

def plain (part : String) : Symbol where
  name := Name.bracketed part

def word (part : String) (rules : List Rule) : Symbol where
  name := Name.bracketed part
  rules := rules
  isTermSequence := true

end Symbol

/-- The rules that are for one symbol. -/
def rowsOf (rows : List (SymbolId × Rule)) (X : SymbolId) : List Rule :=
  (rows.filter (·.1 = X)).map Prod.snd

theorem mem_rowsOf_iff {rows : List (SymbolId × Rule)} {X : SymbolId} {r : Rule} :
    r ∈ rowsOf rows X ↔ (X, r) ∈ rows := by
  simp [rowsOf]

theorem rowsOf_eq_nil {rows : List (SymbolId × Rule)} {X : SymbolId} (h : ∀ x ∈ rows, x.1 ≠ X) :
    rowsOf rows X = [] := by
  refine List.map_eq_nil_iff.mpr (List.filter_eq_nil_iff.mpr fun x hx => ?_)
  simpa using h x hx

/-- Symbols, and rules for them besides those that they come with. -/
def Draft.laid (symbols : List Symbol) (v : Vocabulary) (rows : List (SymbolId × Rule)) : Draft :=
  ({ symbols := symbols, vocabulary := v } : Draft).withRules (rowsOf rows)

namespace Draft

variable {symbols : List Symbol} {v : Vocabulary} {rows pairs : List (SymbolId × Rule)}
variable {X : SymbolId} {r : Rule} {s : Symbol}

theorem laid_nil : laid symbols v [] = { symbols := symbols, vocabulary := v } := withRules_nil _

theorem length_laid : (laid symbols v rows).symbols.length = symbols.length := by
  simp [laid, withRules]

theorem get?_laid (hs : symbols[X.index]? = some s) (hlive : s.pruned = false) :
    (laid symbols v rows).get? X = some { s with rules := s.rules ++ rowsOf rows X } :=
  get?_eq_some_iff.mpr ⟨by simp [laid, withRules, hs], hlive⟩

theorem get?_of_eq_laid {d : Draft} (hd : d = laid symbols v rows) (hs : symbols[X.index]? = some s)
    (hlive : s.pruned = false) : d.get? X = some { s with rules := s.rules ++ rowsOf rows X } :=
  hd ▸ get?_laid hs hlive

theorem symbolName_laid (hs : symbols[X.index]? = some s) :
    (laid symbols v rows).symbolName X = s.name := by
  simp [symbolName, laid, withRules, hs]

theorem names_laid : (laid symbols v rows).symbols.map (·.name) = symbols.map (·.name) :=
  (addsRules_withRules (d := { symbols := symbols, vocabulary := v }) (P := fun _ _ => True)
    fun _ _ _ => trivial).names

theorem isTaken_laid_iff {name : String} :
    (laid symbols v rows).isTaken name = true ↔ name ∈ symbols.map (·.name) := by
  have hnames : (laid symbols v rows).symbols.map (·.name) = symbols.map (·.name) := names_laid
  rw [isTaken_iff, ← hnames, List.mem_map]

section

variable (hlive : ∀ s ∈ symbols, s.pruned = false)
include hlive

theorem mem_liveSymbols_laid_iff :
    X ∈ (laid symbols v rows).liveSymbols ↔ X.index < symbols.length := by
  rw [mem_liveSymbols_iff]
  constructor
  · rintro ⟨s, hs⟩
    have hlt := (List.getElem?_eq_some_iff.mp (get?_eq_some_iff.mp hs).1).1
    rwa [length_laid] at hlt
  · intro hlt
    exact ⟨_, get?_laid (List.getElem?_eq_getElem hlt) (hlive _ (List.getElem_mem hlt))⟩

theorem mem_rules_laid_iff : r ∈ (laid symbols v rows).rules X ↔
    ∃ s, symbols[X.index]? = some s ∧ (r ∈ s.rules ∨ (X, r) ∈ rows) := by
  have hrules : ∀ s, symbols[X.index]? = some s →
      (r ∈ (laid symbols v rows).rules X ↔ r ∈ s.rules ∨ (X, r) ∈ rows) := by
    intro s hs
    rw [rules_of_get? (get?_laid hs (hlive s (List.mem_of_getElem? hs))), List.mem_append,
      mem_rowsOf_iff]
  constructor
  · intro hr
    have hlt := (mem_liveSymbols_laid_iff hlive).mp (live_of_mem_rules hr)
    have hs := List.getElem?_eq_getElem hlt
    exact ⟨_, hs, (hrules _ hs).mp hr⟩
  · rintro ⟨s, hs, hr⟩
    exact (hrules s hs).mpr hr

end

theorem appendRule_laid (hs : symbols[X.index]? = some s) (hlive : s.pruned = false)
    (hnew : (s.rules ++ rowsOf rows X).contains r = false) :
    (laid symbols v rows).appendRule X r = laid symbols v (rows ++ [(X, r)]) := by
  have hget : (laid symbols v rows).get? X = some { s with rules := s.rules ++ rowsOf rows X } :=
    get?_laid hs hlive
  have hrules := rules_of_get? hget
  have hrows : (fun Y => rowsOf rows Y ++ only X [r] Y) = rowsOf (rows ++ [(X, r)]) := by
    funext Y
    by_cases hY : X = Y
    · simp [rowsOf, only, hY]
    · simp [rowsOf, only, hY, Ne.symm hY]
  rw [appendRule_eq_withRules, hrules]
  simp only [hnew, Bool.false_eq_true, if_false]
  rw [laid, withRules_withRules, hrows, laid]

/-- Rules that are new and different are put at the ends of those of their symbols. -/
theorem appendRules_laid (hnew : ∀ x ∈ pairs, ∃ s, symbols[x.1.index]? = some s ∧ s.pruned = false ∧
      (s.rules ++ rowsOf rows x.1).contains x.2 = false)
    (hdistinct : pairs.Pairwise fun x y => x.1 = y.1 → (y.2 == x.2) = false) :
    (laid symbols v rows).appendRules pairs = laid symbols v (rows ++ pairs) := by
  induction pairs generalizing rows with
  | nil => rw [List.append_nil]; rfl
  | cons x pairs ih =>
    obtain ⟨⟨s, hs, hlive, hfresh⟩, hnew⟩ := List.forall_mem_cons.mp hnew
    obtain ⟨hfirst, hdistinct⟩ := List.pairwise_cons.mp hdistinct
    have hone : (laid symbols v rows).appendRule x.1 x.2 = laid symbols v (rows ++ [x]) :=
      appendRule_laid hs hlive hfresh
    rw [appendRules, List.foldl_cons, hone, List.append_cons rows x pairs]
    refine ih (fun y hy => ?_) hdistinct
    obtain ⟨t, ht, hlive, hfresh⟩ := hnew y hy
    refine ⟨t, ht, hlive, ?_⟩
    by_cases hxy : x.1 = y.1
    · have hne := hfirst y hy hxy
      rw [List.contains_append, Bool.or_eq_false_iff] at hfresh ⊢
      refine ⟨hfresh.1, ?_⟩
      have hrows : rowsOf (rows ++ [x]) y.1 = rowsOf rows y.1 ++ [x.2] := by simp [rowsOf, hxy]
      rw [hrows, List.contains_append, hfresh.2, List.contains_cons, hne]
      rfl
    · simpa [rowsOf, hxy] using hfresh

/-- Symbols that come after those with rows have their own rules only. -/
theorem symbols_laid_append (hrows : ∀ x ∈ rows, x.1.index < symbols.length) (more : List Symbol) :
    (laid symbols v rows).symbols ++ more = (laid (symbols ++ more) v rows).symbols := by
  have hnone : ∀ i, rowsOf rows ⟨i + symbols.length⟩ = [] := by
    refine fun i => rowsOf_eq_nil fun x hx heq => ?_
    have hindex : x.1.index = i + symbols.length := congrArg SymbolId.index heq
    have hlt := hrows x hx
    omega
  have hmore : (more.mapIdx fun i s =>
      { s with rules := s.rules ++ rowsOf rows ⟨i + symbols.length⟩ }) = more := by
    apply List.ext_getElem
    · simp
    · intro i hi _
      simp [hnone]
  simp only [laid, withRules, List.mapIdx_append, hmore]

end Draft

end QueryGrammar
