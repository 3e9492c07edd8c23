import QueryGrammar.Finish.Insertion
import QueryGrammar.Proofs.Draft.Closure
/-!
What a symbol shows by its first rule. Each part of a level is expanded in the state in which the
level began, since the one before it has taken out again what it put in. Each level takes up a live
symbol that is not on the path yet, so once the depth exceeds the number of these, more depth shows
nothing else.
-/
namespace QueryGrammar.Draft

variable {d : Draft} {path : List SymbolId} {X : SymbolId}

/-- Steps that each leave the state alone, taken one after another. -/
theorem run_mapM_of_restores {α β σ : Type} {f : α → StateM σ β} {g : α → β} {state : σ}
    (h : ∀ a, (f a).run state = pure (g a, state)) (as : List α) :
    (as.mapM f).run state = pure (as.map g, state) := by
  induction as with
  | nil => rfl
  | cons a as ih => simp [List.mapM_cons, StateT.run_bind, h a, ih]

/-- One level of the expansion, where the next one leaves its state alone. -/
theorem run_display_succ {depth : Nat} {shown : SymbolId → List Segment}
    (h : ∀ Y, (d.display depth Y).run (X :: path) = pure (shown Y, X :: path)) :
    (d.display (depth + 1) X).run path =
      pure (if path.contains X then []
        else match d.firstExpansion X with
          | some (.terminal term text) => text.segments [.literal term]
          | some (.sequence first second text) =>
            text.segments ((first :: second.toList).flatMap shown)
          | _ => [], path) := by
  by_cases hX : path.contains X
  · simp only [display, StateT.run_bind, StateT.run_get, pure_bind, if_pos hX, StateT.run_pure]
  · simp only [display, StateT.run_bind, StateT.run_get, pure_bind, if_neg hX]
    cases hrule : d.firstExpansion X with
    | none => simp
    | some x =>
      cases x with
      | sequence first second text =>
        cases text with
        | verbatim =>
          have hparts := run_mapM_of_restores h (first :: second.toList)
          simp only [StateT.run_bind, StateT.run_modify, StateT.run_map, pure_bind, hparts,
            map_pure, StateT.run_pure, List.erase_cons_head, DisplayText.segments, List.flatMap]
        | _ => simp [DisplayText.segments]
      | _ => simp

/-- An expansion ends with the symbols being expanded that it began with. -/
theorem run_display (d : Draft) (depth : Nat) (path : List SymbolId) (X : SymbolId) :
    (d.display depth X).run path = pure (d.shownText depth path X, path) := by
  refine Prod.ext rfl ?_
  induction depth generalizing path X with
  | zero => rfl
  | succ depth ih =>
    rw [run_display_succ fun Y => Prod.ext rfl (ih (X :: path) Y)]
    rfl

theorem shownText_succ (d : Draft) (depth : Nat) (path : List SymbolId) (X : SymbolId) :
    d.shownText (depth + 1) path X =
      if path.contains X then []
      else match d.firstExpansion X with
        | some (.terminal term text) => text.segments [.literal term]
        | some (.sequence first second text) =>
          text.segments ((first :: second.toList).flatMap (d.shownText depth (X :: path)))
        | _ => [] :=
  congrArg Prod.fst (run_display_succ (run_display d depth (X :: path)))

theorem remaining_cons_lt {inner : List SymbolId} (hX : X ∈ inner) (hnew : X ∉ path) :
    remaining inner (X :: path) < remaining inner path := by
  have hsame : remaining inner (X :: path) = remaining inner (path ++ [X]) := by
    refine congrArg List.length (List.filter_congr fun id _ => ?_)
    simp [List.contains_eq_mem, or_comm]
  rw [hsame]
  exact remaining_append_lt hX hnew (List.mem_singleton_self X)

/-- Depths that exceed the number of live symbols off the path show the same. -/
theorem shownText_eq_of_lt {depth depth' : Nat} (h : remaining d.liveSymbols path < depth)
    (h' : remaining d.liveSymbols path < depth') (X : SymbolId) :
    d.shownText depth path X = d.shownText depth' path X := by
  induction depth generalizing depth' path X with
  | zero => omega
  | succ depth ih =>
    cases depth' with
    | zero => omega
    | succ depth' =>
      by_cases hX : X ∈ path
      · simp [shownText_succ, hX]
      · cases hrules : d.rules X with
        | nil => simp [shownText_succ, firstExpansion, hrules]
        | cons r rules =>
          have hlive : X ∈ d.liveSymbols := live_of_mem_rules (hrules ▸ List.mem_cons_self)
          have hlt := remaining_cons_lt hlive hX
          have hinner : d.shownText depth (X :: path) = d.shownText depth' (X :: path) :=
            funext fun Y => ih (by omega) (by omega) Y
          simp only [shownText_succ, hinner]

/-- From an empty path, a depth above the number of symbols is enough. -/
theorem shownText_eq_of_length_lt {depth : Nat} (h : d.symbols.length < depth) (X : SymbolId) :
    d.shownText depth [] X = d.shownText (d.symbols.length + 1) [] X := by
  have hle : remaining d.liveSymbols [] ≤ d.symbols.length :=
    Nat.le_trans (List.length_filter_le _ _) d.length_liveSymbols_le
  exact shownText_eq_of_lt (Nat.lt_of_le_of_lt hle h) (Nat.lt_succ_of_le hle) X

end QueryGrammar.Draft
