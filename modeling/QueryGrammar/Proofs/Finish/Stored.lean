import QueryGrammar.Proofs.Finish.Ranked
/-!
What the search for insertions has stored at some point. A stored derivation never repeats a symbol
on a path: when it was made, the symbols below its root had candidates at least as good as those
that stand in it, and a candidate is worse than the ones it is made of.
-/
namespace QueryGrammar

namespace Candidates

variable {best : Candidates} {X Y : SymbolId} {c : Candidate}

theorem lookup_put : (best.put X c).lookup Y = if Y = X then some c else best.lookup Y := by
  induction best with
  | nil =>
    by_cases h : Y = X
    · simp [put, h]
    · simp [put, List.lookup, h, beq_false_of_ne h]
  | cons p best ih =>
    obtain ⟨Z, b⟩ := p
    unfold put
    by_cases hZ : Z = X
    · subst hZ
      by_cases h : Y = Z
      · simp [h]
      · simp [List.lookup, h, beq_false_of_ne h]
    · rw [if_neg hZ, List.lookup_cons, List.lookup_cons, ih]
      by_cases h : Y = Z
      · subst h
        simp [hZ]
      · simp [beq_false_of_ne h]

theorem lookup_put_self : (best.put X c).lookup X = some c := lookup_put.trans (if_pos rfl)

theorem keys_put : (best.put X c).map Prod.fst =
    if X ∈ best.map Prod.fst then best.map Prod.fst else best.map Prod.fst ++ [X] := by
  induction best with
  | nil => simp [put]
  | cons p best ih =>
    obtain ⟨Z, b⟩ := p
    unfold put
    by_cases hZ : Z = X
    · simp [hZ]
    · have hX : ¬ X = Z := fun h => hZ h.symm
      rw [if_neg hZ, List.map_cons, List.map_cons, ih]
      by_cases hmem : X ∈ best.map Prod.fst
      · rw [if_pos hmem, if_pos (List.mem_cons_of_mem _ hmem)]
      · rw [if_neg hmem, if_neg (by simpa [hX] using hmem), List.cons_append]

theorem nodup_put (h : (best.map Prod.fst).Nodup) : ((best.put X c).map Prod.fst).Nodup := by
  rw [keys_put]
  split
  · exact h
  next hX => exact List.nodup_append.mpr ⟨h, by simp, fun Y hY Z hZ heq =>
      hX (List.mem_singleton.mp hZ ▸ heq ▸ hY)⟩

theorem mem_iff_lookup (h : (best.map Prod.fst).Nodup) :
    (X, c) ∈ best ↔ best.lookup X = some c := by
  induction best with
  | nil => simp
  | cons p best ih =>
    obtain ⟨Z, b⟩ := p
    rw [List.map_cons, List.nodup_cons] at h
    rw [List.lookup_cons, List.mem_cons, ih h.2]
    by_cases hZ : X = Z
    · subst hZ
      have hnone : best.lookup X ≠ some c := by
        intro hsome
        have hmem : (X, c) ∈ best := (ih h.2).mpr hsome
        exact h.1 (List.mem_map.mpr ⟨_, hmem, rfl⟩)
      simp [hnone, eq_comm]
    · simp [beq_false_of_ne hZ, hZ]

end Candidates

namespace Draft

variable {d : Draft} {best best' : Candidates} {X Y : SymbolId} {r : Rule} {b c : Candidate}

/-! ### One trial -/

/-- A rule gives a candidate from the candidates stored for the symbols that it needs. -/
theorem candidateBy_eq_some_iff : d.candidateBy best X r = some c ↔ r.CanSupply ∧
    ((∃ text, d.lexicalText? r.expansion = some text ∧
      leafCandidate d.vocabulary (d.symbolName X) r.semantic (r.insertionCost.getD 0) text = .ok c) ∨
    (d.lexicalText? r.expansion = none ∧ ∃ parts : List Candidate,
      r.expansion.needed.map (fun Y => best.lookup Y) = parts.map some ∧
        composedCandidate d.vocabulary (d.symbolName X) r.semantic parts = .ok c)) := by
  have hone : ∀ {x : Option Candidate} {parts : List Candidate},
      [x] = parts.map some ↔ ∃ a, x = some a ∧ parts = [a] := by
    intro x parts
    rcases parts with _ | ⟨a, _ | ⟨b, rest⟩⟩ <;> simp
  have htwo : ∀ {x y : Option Candidate} {parts : List Candidate},
      [x, y] = parts.map some ↔ ∃ a, x = some a ∧ ∃ b, y = some b ∧ parts = [a, b] := by
    intro x y parts
    rcases parts with _ | ⟨a, _ | ⟨b, _ | ⟨e, rest⟩⟩⟩ <;> simp
  unfold candidateBy Rule.CanSupply
  cases hx : r.expansion with
  | terminal term text =>
    cases hcost : r.insertionCost <;> simp [lexicalText?, toOption_eq_some_iff]
  | sequence first second text =>
    cases hcost : r.insertionCost <;> simp [lexicalText?, toOption_eq_some_iff]
  | placeholder category => simp
  | unary part noInsertion =>
    cases noInsertion
    · simp [lexicalText?, toOption_eq_some_iff, Expansion.needed, hone, Option.bind_eq_some_iff]
    · simp
  | binary first second cost excluded =>
    cases hexcluded : excluded.any
    · simp [hexcluded, lexicalText?, toOption_eq_some_iff, Expansion.needed, htwo,
        Option.bind_eq_some_iff]
      constructor
      · rintro ⟨a, ha, b, hb, h⟩
        exact ⟨a, b, ⟨ha, hb⟩, h⟩
      · rintro ⟨a, b, ⟨ha, hb⟩, h⟩
        exact ⟨a, ha, b, hb, h⟩
    · simp [hexcluded]

/-- What trying a rule of a symbol leaves stored. -/
def tryRule (d : Draft) (best : Candidates) (x : SymbolId × Rule) : Candidates :=
  (d.improveBy x.1 (best, false) x.2).1

/-- What one pass tries, in this order. -/
def trials (d : Draft) : List (SymbolId × Rule) :=
  d.liveSymbols.flatMap fun X => (d.rules X).map fun r => (X, r)

/-- What is stored after so many passes. -/
def afterPasses (d : Draft) : Nat → Candidates
  | 0 => []
  | k + 1 => (d.improve (d.afterPasses k)).1

/-- The rule gives nothing better than what is stored for its symbol. -/
def Settled (d : Draft) (best : Candidates) (X : SymbolId) (r : Rule) : Prop :=
  ∀ c, d.candidateBy best X r = some c → ∃ b, best.lookup X = some b ∧ c.isBetter b = false

theorem mem_trials_iff {x : SymbolId × Rule} : x ∈ d.trials ↔ x.2 ∈ d.rules x.1 := by
  obtain ⟨X, r⟩ := x
  simp only [trials, List.mem_flatMap, List.mem_map, Prod.mk.injEq]
  constructor
  · rintro ⟨Y, -, q, hq, rfl, rfl⟩
    exact hq
  · exact fun hr => ⟨X, live_of_mem_rules hr, r, hr, rfl, rfl⟩

/-- A trial leaves all as it was, or stores a candidate that is better than the one before. -/
theorem improveBy_cases (state : Candidates × Bool) (X : SymbolId) (r : Rule) :
    (d.improveBy X state r = state ∧ (r.edit = none → d.Settled state.1 X r)) ∨
    (r.edit = none ∧ ∃ c, d.candidateBy state.1 X r = some c ∧
      (∀ b, state.1.lookup X = some b → c.isBetter b = true) ∧
      d.improveBy X state r = (state.1.put X c, true)) := by
  unfold improveBy Settled
  by_cases hedit : r.edit = none
  · rw [if_neg (by simp [Rule.isEdit, hedit])]
    cases hc : d.candidateBy state.1 X r with
    | none => exact Or.inl ⟨rfl, by simp⟩
    | some c =>
      dsimp only
      cases hb : state.1.lookup X with
      | none => exact Or.inr ⟨hedit, c, rfl, by simp, by simp⟩
      | some b =>
        cases hbetter : c.isBetter b with
        | true => exact Or.inr ⟨hedit, c, rfl, by simp [hbetter], by simp [hbetter]⟩
        | false => exact Or.inl ⟨by simp [hbetter], by simp [hbetter]⟩
  · rw [if_pos (by simpa [Rule.isEdit, Option.isSome_iff_ne_none] using hedit)]
    exact Or.inl ⟨rfl, fun h => absurd h hedit⟩

theorem tryRule_cases (best : Candidates) (X : SymbolId) (r : Rule) :
    (d.tryRule best (X, r) = best ∧ (r.edit = none → d.Settled best X r)) ∨
    (r.edit = none ∧ ∃ c, d.candidateBy best X r = some c ∧
      (∀ b, best.lookup X = some b → c.isBetter b = true) ∧
      d.tryRule best (X, r) = best.put X c) := by
  rcases d.improveBy_cases (best, false) X r with ⟨heq, hsettled⟩ | ⟨hedit, c, hc, hbetter, heq⟩
  · exact Or.inl ⟨congrArg Prod.fst heq, hsettled⟩
  · exact Or.inr ⟨hedit, c, hc, hbetter, congrArg Prod.fst heq⟩

theorem improve_eq (best : Candidates) : d.improve best =
    d.trials.foldl (fun state x => d.improveBy x.1 state x.2) (best, false) := by
  rw [improve, trials, List.foldl_flatMap]
  simp only [List.foldl_map]

theorem fst_improveBy (state : Candidates × Bool) (x : SymbolId × Rule) :
    (d.improveBy x.1 state x.2).1 = d.tryRule state.1 x := by
  unfold tryRule improveBy
  split
  · rfl
  · dsimp only
    cases d.candidateBy state.1 x.1 x.2 with
    | none => rfl
    | some c =>
      dsimp only
      split <;> rfl

theorem fst_foldl_improveBy (xs : List (SymbolId × Rule)) (state : Candidates × Bool) :
    (xs.foldl (fun state x => d.improveBy x.1 state x.2) state).1 = xs.foldl d.tryRule state.1 := by
  induction xs generalizing state with
  | nil => rfl
  | cons x xs ih => rw [List.foldl_cons, List.foldl_cons, ih, fst_improveBy]

/-- A pass tries all rules one after another. -/
theorem afterPasses_succ (k : Nat) :
    d.afterPasses (k + 1) = d.trials.foldl d.tryRule (d.afterPasses k) := by
  rw [afterPasses, improve_eq, fst_foldl_improveBy]

/-! ### What is stored -/

/-- Each symbol in the derivation has a candidate at least as good as the one that stands there. -/
structure Grounded (d : Draft) (best : Candidates) (t : Derivation SymbolId Rule) : Prop where
  valid : t.Valid d.supplying
  covered : ∀ s, s.Within t → ∃ part b, d.supply s = .ok part ∧
    List.lookup s.symbol best = some b ∧ b.rank ≤ part.rank

/-- The candidates that the search has stored at some point. -/
structure Stored (d : Draft) (best : Candidates) : Prop where
  keys : (best.map Prod.fst).Nodup
  grounded : ∀ X c, best.lookup X = some c →
    ∃ t, d.Grounded best t ∧ t.symbol = X ∧ d.supply t = .ok c
  noRepeat : ∀ X c, best.lookup X = some c → c.tree.NoRepeat

theorem stored_nil : d.Stored [] := ⟨by simp, by simp, by simp⟩

theorem Grounded.mono {t : Derivation SymbolId Rule} (h : d.Grounded best t)
    (hle : ∀ X b, best.lookup X = some b → ∃ b', best'.lookup X = some b' ∧ b'.rank ≤ b.rank) :
    d.Grounded best' t where
  valid := h.valid
  covered s hs := by
    obtain ⟨part, b, hpart, hb, hrank⟩ := h.covered s hs
    obtain ⟨b', hb', hrank'⟩ := hle s.symbol b hb
    exact ⟨part, b', hpart, hb', hrank'.trans hrank⟩

/-- Derivations for all symbols that a rule needs. -/
theorem Stored.exists_children (hs : d.Stored best) {needed : List SymbolId}
    {parts : List Candidate} (h : needed.map (fun Y => best.lookup Y) = parts.map some) :
    ∃ ts : List (Derivation SymbolId Rule), ts.map Derivation.symbol = needed ∧
      ts.map d.supply = parts.map .ok ∧
      ∀ t ∈ ts, d.Grounded best t ∧ ∃ part, d.supply t = .ok part ∧
        List.lookup t.symbol best = some part := by
  induction needed generalizing parts with
  | nil =>
    rw [List.map_eq_nil_iff.mp h.symm]
    exact ⟨[], rfl, rfl, by simp⟩
  | cons Y needed ih =>
    obtain ⟨part, parts, rfl, hpart, hparts⟩ := List.map_eq_cons_iff.mp h.symm
    obtain ⟨ts, hsymbols, hsupply, hall⟩ := ih hparts.symm
    obtain ⟨t, ht, rfl, hc⟩ := hs.grounded Y part hpart.symm
    refine ⟨t :: ts, by rw [List.map_cons, hsymbols], by rw [List.map_cons, hc, hsupply]; rfl, ?_⟩
    exact List.forall_mem_cons.mpr ⟨⟨ht, part, hc, hpart.symm⟩, hall⟩

theorem Stored.exists_derivation (hs : d.Stored best) (hr : r ∈ d.rules X) (hplain : r.edit = none)
    (hc : d.candidateBy best X r = some c) :
    ∃ ts : List (Derivation SymbolId Rule), (Derivation.node X r ts).Valid d.supplying ∧
      d.supply (.node X r ts) = .ok c ∧
      ∀ t ∈ ts, d.Grounded best t ∧ ∃ part, d.supply t = .ok part ∧
        List.lookup t.symbol best = some part := by
  obtain ⟨hcan, ⟨text, htext, hmade⟩ | ⟨htext, parts, hparts, hmade⟩⟩ := candidateBy_eq_some_iff.mp hc
  · have hnone := needed_of_lexical (isLexical_of_text htext)
    refine ⟨[], .node ⟨hr, hplain, hcan⟩ hnone.symm (by simp), ?_, by simp⟩
    rw [supply_leaf htext]
    exact hmade
  · obtain ⟨ts, hsymbols, hsupply, hall⟩ := hs.exists_children hparts
    exact ⟨ts, .node ⟨hr, hplain, hcan⟩ hsymbols fun t ht => (hall t ht).1.valid,
      (supply_node_eq_ok_iff htext).mpr ⟨parts, hsupply, hmade⟩, hall⟩

section Searching

variable (hd : d.Searchable) (hs : d.Stored best)
include hd hs

theorem Stored.nonnegative (hb : best.lookup X = some b) : Cost.Nonnegative b.cost := by
  obtain ⟨t, ht, -, hsupply⟩ := hs.grounded X b hb
  exact nonnegative_cost hd.priced ht.valid hsupply

theorem Stored.nonnegative_candidateBy (hr : r ∈ d.rules X) (hplain : r.edit = none)
    (hc : d.candidateBy best X r = some c) : Cost.Nonnegative c.cost := by
  obtain ⟨ts, hvalid, hsupply, -⟩ := hs.exists_derivation hr hplain hc
  exact nonnegative_cost hd.priced hvalid hsupply

theorem Stored.rank_lt (hr : r ∈ d.rules X) (hplain : r.edit = none)
    (hc : d.candidateBy best X r = some c) (hb : best.lookup Y = some b) :
    c.isBetter b = true ↔ c.rank < b.rank :=
  Candidate.isBetter_iff (hs.nonnegative_candidateBy hd hr hplain hc) (hs.nonnegative hd hb)

/-- A symbol that stands below itself had a candidate already, which was better. -/
theorem Stored.not_below (hr : r ∈ d.rules X) (hplain : r.edit = none)
    (hc : d.candidateBy best X r = some c)
    (hbetter : ∀ b, best.lookup X = some b → c.isBetter b = true)
    {ts : List (Derivation SymbolId Rule)} (hvalid : (Derivation.node X r ts).Valid d.supplying)
    (hsupply : d.supply (.node X r ts) = .ok c) {t : Derivation SymbolId Rule} (ht : t ∈ ts)
    (hgrounded : d.Grounded best t) : d.symbolName X ∉ (d.provenance t).names := by
  intro hname
  obtain ⟨s, hwithin, hsymbol⟩ := exists_within_of_mem_names hgrounded.valid hname
  obtain ⟨part, b, hpart, hb, hle⟩ := hgrounded.covered s hwithin
  obtain ⟨child, hchild, hlt⟩ := rank_lt_of_child hd.priced hvalid hsupply ht
  obtain ⟨hsvalid, inner, hinner, hinnerLe⟩ :=
    exists_rank_le_of_within hd.priced hgrounded.valid hchild hwithin
  obtain rfl : part = inner := Except.ok.inj (hpart.symm.trans hinner)
  have hX : s.symbol = X := symbolName_inj hd.consistent.names (live_of_valid hsvalid)
    (live_of_mem_rules hr) hsymbol
  rw [hX] at hb
  have hless := (hs.rank_lt hd hr hplain hc hb).mp (hbetter b hb)
  exact absurd (hless.trans_le (hle.trans hinnerLe)) hlt.not_gt

/-- Storing a better candidate keeps what is known of all that are stored. -/
theorem Stored.put (hr : r ∈ d.rules X) (hplain : r.edit = none)
    (hc : d.candidateBy best X r = some c)
    (hbetter : ∀ b, best.lookup X = some b → c.isBetter b = true) : d.Stored (best.put X c) := by
  obtain ⟨ts, hvalid, hsupply, hall⟩ := hs.exists_derivation hr hplain hc
  have hle : ∀ Y b, best.lookup Y = some b →
      ∃ b', (best.put X c).lookup Y = some b' ∧ b'.rank ≤ b.rank := by
    intro Y b hb
    rw [Candidates.lookup_put]
    by_cases hY : Y = X
    · subst hY
      exact ⟨c, if_pos rfl, ((hs.rank_lt hd hr hplain hc hb).mp (hbetter b hb)).le⟩
    · exact ⟨b, (if_neg hY).trans hb, le_rfl⟩
  refine ⟨Candidates.nodup_put hs.keys, fun Y e he => ?_, fun Y e he => ?_⟩
  · rw [Candidates.lookup_put] at he
    split at he
    next hY =>
      obtain rfl := Option.some.inj he
      refine ⟨.node X r ts, ⟨hvalid, fun s hwithin => ?_⟩, hY.symm, hsupply⟩
      cases hwithin with
      | refl => exact ⟨c, c, hsupply, Candidates.lookup_put_self, le_rfl⟩
      | child ht hwithin => exact ((hall _ ht).1.mono hle).covered s hwithin
    next =>
      obtain ⟨t, ht, hsymbol, hc⟩ := hs.grounded Y e he
      exact ⟨t, ht.mono hle, hsymbol, hc⟩
  · rw [Candidates.lookup_put] at he
    split at he
    next =>
      obtain rfl := Option.some.inj he
      rw [(backs_of_supply hvalid hsupply).tree, provenance_node]
      refine Provenance.noRepeat_mk (fun tree htree => ?_) fun tree htree => ?_
      · obtain ⟨t, ht, rfl⟩ := List.mem_map.mp htree
        exact hs.not_below hd hr hplain hc hbetter hvalid hsupply ht (hall t ht).1
      · obtain ⟨t, ht, rfl⟩ := List.mem_map.mp htree
        obtain ⟨hgrounded, part, hpart, hlookup⟩ := hall t ht
        rw [← (backs_of_supply hgrounded.valid hpart).tree]
        exact hs.noRepeat t.symbol part hlookup
    next => exact hs.noRepeat Y e he

theorem Stored.tryRule (hr : r ∈ d.rules X) : d.Stored (d.tryRule best (X, r)) := by
  rcases d.tryRule_cases best X r with ⟨heq, -⟩ | ⟨hplain, c, hc, hbetter, heq⟩
  · rw [heq]
    exact hs
  · rw [heq]
    exact hs.put hd hr hplain hc hbetter

end Searching

theorem Stored.foldl_tryRule (hd : d.Searchable) (hs : d.Stored best)
    {xs : List (SymbolId × Rule)} (hxs : ∀ x ∈ xs, x ∈ d.trials) :
    d.Stored (xs.foldl d.tryRule best) := by
  induction xs generalizing best with
  | nil => exact hs
  | cons x xs ih =>
    refine ih (hs.tryRule hd (mem_trials_iff.mp (hxs x (by simp)))) fun y hy => ?_
    exact hxs y (List.mem_cons_of_mem _ hy)

theorem Searchable.stored_afterPasses (hd : d.Searchable) (k : Nat) :
    d.Stored (d.afterPasses k) := by
  induction k with
  | zero => exact stored_nil
  | succ k ih =>
    rw [afterPasses_succ]
    exact ih.foldl_tryRule hd fun _ hx => hx

end Draft

end QueryGrammar
