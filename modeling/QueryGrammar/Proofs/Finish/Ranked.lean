import QueryGrammar.Proofs.Finish.Supplies
import QueryGrammar.Proofs.Workspace.Priced
/-!
Candidates in the order of preference. A candidate is above all candidates it is made of: it costs no
less, and its derivation is larger. That a cheaper text may come later in the order of keys does no
harm, because keys are compared last.
-/
namespace QueryGrammar

/-- The place of a candidate in the order of preference; less is better. -/
noncomputable def Candidate.rank (c : Candidate) : ℕ∞ ×ₗ ℕ ×ₗ String :=
  toLex (Cost.amount c.cost, toLex (c.size, c.key))

theorem Candidate.isBetter_iff {a b : Candidate} (ha : Cost.Nonnegative a.cost)
    (hb : Cost.Nonnegative b.cost) : a.isBetter b = true ↔ a.rank < b.rank := by
  simp only [isBetter, Bool.or_eq_true, Bool.and_eq_true, decide_eq_true_eq, beq_iff_eq,
    Cost.lt_iff_amount ha hb, Cost.beq_iff_amount ha hb, rank, Prod.Lex.toLex_lt_toLex]

theorem Candidate.rank_lt {a b : Candidate} (hcost : Cost.amount a.cost ≤ Cost.amount b.cost)
    (hsize : a.size < b.size) : a.rank < b.rank := by
  rw [rank, rank, Prod.Lex.toLex_lt_toLex]
  rcases hcost.lt_or_eq with hlt | heq
  · exact Or.inl hlt
  · exact Or.inr ⟨heq, Prod.Lex.toLex_lt_toLex.mpr (Or.inl hsize)⟩

theorem Candidate.amount_le_of_rank_le {a b : Candidate} (h : a.rank ≤ b.rank) :
    Cost.amount a.cost ≤ Cost.amount b.cost := by
  rcases Prod.Lex.toLex_le_toLex.mp h with hlt | ⟨heq, -⟩
  · exact hlt.le
  · exact heq.le

namespace Provenance

/-- The number of symbols on the longest path. -/
def height : Provenance → Nat
  | mk _ _ children => heights children + 1
where
  heights : List Provenance → Nat
    | [] => 0
    | t :: ts => max (height t) (heights ts)

/-- The symbols from the root to each leaf. -/
def branches : Provenance → List (List String)
  | mk symbol _ [] => [[symbol]]
  | mk symbol _ (t :: ts) => (branches t ++ branchesAll ts).map (symbol :: ·)
where
  branchesAll : List Provenance → List (List String)
    | [] => []
    | t :: ts => branches t ++ branchesAll ts

/-- No symbol occurs twice on a path from the root to a leaf. -/
def NoRepeat (t : Provenance) : Prop := ∀ path ∈ t.branches, path.Nodup

variable {name : String} {text : List Segment} {t : Provenance} {ts : List Provenance}

theorem height_lt_of_mem (ht : t ∈ ts) : t.height < (mk name text ts).height := by
  rw [height]
  induction ts with
  | nil => simp at ht
  | cons u ts ih =>
    rw [height.heights]
    rcases List.mem_cons.mp ht with rfl | ht
    · omega
    · have := ih ht
      omega

theorem branchesAll_eq (ts : List Provenance) :
    branches.branchesAll ts = ts.flatMap branches := by
  induction ts with
  | nil => rfl
  | cons t ts ih => simp [branches.branchesAll, ih]

theorem mem_branches_iff {path : List String} : path ∈ (mk name text ts).branches ↔
    ts = [] ∧ path = [name] ∨ ∃ t ∈ ts, ∃ rest ∈ t.branches, path = name :: rest := by
  cases ts with
  | nil => simp [branches]
  | cons t ts =>
    simp only [branches, branchesAll_eq, List.mem_map, List.mem_append, List.mem_flatMap]
    grind

theorem induction {P : Provenance → Prop}
    (mk : ∀ name text ts, (∀ t ∈ ts, P t) → P (.mk name text ts)) (t : Provenance) : P t :=
  Provenance.rec (motive_1 := P) (motive_2 := fun ts => ∀ t ∈ ts, P t) mk (by simp)
    (fun _ _ ht hts => List.forall_mem_cons.mpr ⟨ht, hts⟩) t

theorem exists_height (h : ts ≠ []) : ∃ t ∈ ts, height.heights ts = t.height := by
  induction ts with
  | nil => exact absurd rfl h
  | cons u us ih =>
    rw [height.heights]
    cases us with
    | nil => exact ⟨u, by simp, by simp [height.heights]⟩
    | cons v vs =>
      obtain ⟨t, ht, heq⟩ := ih (by simp)
      rcases Nat.le_total (height.heights (v :: vs)) u.height with hle | hle
      · exact ⟨u, by simp, Nat.max_eq_left hle⟩
      · exact ⟨t, List.mem_cons_of_mem _ ht, (Nat.max_eq_right hle).trans heq⟩

/-- A longest path is as long as the derivation is high. -/
theorem exists_branch (t : Provenance) : ∃ path ∈ t.branches, path.length = t.height := by
  induction t using Provenance.induction with
  | mk name text ts ih =>
    rw [height]
    by_cases hts : ts = []
    · subst hts
      exact ⟨[name], by simp [branches], rfl⟩
    · obtain ⟨t, ht, heq⟩ := exists_height hts
      obtain ⟨path, hpath, hlength⟩ := ih t ht
      refine ⟨name :: path, mem_branches_iff.mpr (Or.inr ⟨t, ht, path, hpath, rfl⟩), ?_⟩
      rw [List.length_cons, hlength, heq]

theorem subset_names {path : List String} (h : path ∈ t.branches) : path ⊆ t.names := by
  induction t using Provenance.induction generalizing path with
  | mk name text ts ih =>
    intro x hx
    rw [names]
    rcases mem_branches_iff.mp h with ⟨-, rfl⟩ | ⟨t, ht, rest, hrest, rfl⟩
    · exact List.mem_cons.mpr (Or.inl (List.mem_singleton.mp hx))
    · rcases List.mem_cons.mp hx with rfl | hx
      · exact List.mem_cons_self
      · exact List.mem_cons_of_mem _ (mem_namesAll_iff.mpr ⟨t, ht, ih t ht hrest hx⟩)

theorem noRepeat_mk (hname : ∀ t ∈ ts, name ∉ t.names) (hts : ∀ t ∈ ts, t.NoRepeat) :
    (mk name text ts).NoRepeat := by
  intro path hpath
  rcases mem_branches_iff.mp hpath with ⟨-, rfl⟩ | ⟨t, ht, rest, hrest, rfl⟩
  · simp
  · rw [List.nodup_cons]
    exact ⟨fun h => hname t ht (subset_names hrest h), hts t ht rest hrest⟩

/-- A derivation that repeats no symbol is no higher than there are symbols. -/
theorem NoRepeat.height_le (h : t.NoRepeat) {known : List String} (hknown : t.names ⊆ known) :
    t.height ≤ known.length := by
  obtain ⟨path, hpath, hlength⟩ := exists_branch t
  have hsubset : path ⊆ known := fun x hx => hknown (subset_names hpath hx)
  rw [← hlength]
  exact ((h path hpath).subperm hsubset).length_le

end Provenance

namespace Draft

variable {d : Draft} {X : SymbolId} {r : Rule} {c : Candidate} {s t : Derivation SymbolId Rule}
  {ts : List (Derivation SymbolId Rule)}

theorem nonnegative_insertionCost (hd : d.Priced) (hr : r ∈ d.rules X) (hcan : r.CanSupply)
    (hlexical : r.expansion.isLexical = true) : Cost.Nonnegative (r.insertionCost.getD 0) := by
  have hsome : r.insertionCost.isSome = true := by
    unfold Rule.CanSupply at hcan
    cases hx : r.expansion <;> simp_all [Expansion.isLexical]
  obtain ⟨cost, hcost⟩ := Option.isSome_iff_exists.mp hsome
  rw [hcost]
  exact Cost.nonnegative_of_isCost (hd X r hr cost hcost)

theorem nonnegative_supplyCost (hd : d.Priced) (ht : t.Valid d.supplying) :
    Cost.Nonnegative (supplyCost t) := by
  induction ht with
  | @node X r ts hrule _ _ ih =>
    rw [supplyCost_node]
    split
    next hlexical => exact nonnegative_insertionCost hd hrule.1 hrule.2.2 hlexical
    next =>
      refine Cost.Nonnegative.sum (fun y hy => ?_) Cost.nonnegative_negativeZero
      obtain ⟨u, hu, rfl⟩ := List.mem_map.mp hy
      exact ih u hu

theorem nonnegative_cost (hd : d.Priced) (ht : t.Valid d.supplying) (hc : d.supply t = .ok c) :
    Cost.Nonnegative c.cost :=
  (backs_of_supply ht hc).cost ▸ nonnegative_supplyCost hd ht

theorem lt_foldl_add {sizes : List Nat} {n start : Nat} (hstart : 0 < start) (hn : n ∈ sizes) :
    n < sizes.foldl (· + ·) start := by
  induction sizes generalizing start with
  | nil => simp at hn
  | cons m sizes ih =>
    have hge : ∀ (xs : List Nat) (k : Nat), k ≤ xs.foldl (· + ·) k := by
      intro xs
      induction xs with
      | nil => exact fun k => Nat.le_refl k
      | cons x xs ihx => exact fun k => Nat.le_trans (Nat.le_add_right k x) (ihx (k + x))
    rcases List.mem_cons.mp hn with rfl | hn
    · exact Nat.lt_of_lt_of_le (Nat.lt_add_of_pos_left hstart) (hge sizes (start + n))
    · exact ih (Nat.add_pos_left hstart m) hn

/-- A candidate is above those for the parts of its rule. -/
theorem rank_lt_of_child (hd : d.Priced) (ht : (Derivation.node X r ts).Valid d.supplying)
    (hc : d.supply (.node X r ts) = .ok c) (hs : s ∈ ts) :
    ∃ part, d.supply s = .ok part ∧ part.rank < c.rank := by
  have hbacks := backs_of_supply ht hc
  cases ht with
  | node hrule hparts hts =>
    have hlexical : ¬ r.expansion.isLexical = true := by
      intro hlexical
      have hnone := hparts.trans (needed_of_lexical hlexical)
      rw [List.map_eq_nil_iff.mp hnone] at hs
      exact absurd hs List.not_mem_nil
    have htext : d.lexicalText? r.expansion = none := not_isLexical_iff.mp hlexical
    obtain ⟨parts, hsupplied, -⟩ := (supply_node_eq_ok_iff htext).mp hc
    have hmem : d.supply s ∈ parts.map .ok := hsupplied ▸ List.mem_map_of_mem hs
    obtain ⟨part, -, hpart⟩ := List.mem_map.mp hmem
    refine ⟨part, hpart.symm, Candidate.rank_lt ?_ ?_⟩
    · rw [hbacks.cost, (backs_of_supply (hts s hs) hpart.symm).cost, supplyCost_node,
        if_neg hlexical]
      refine Cost.amount_le_sum (fun y hy => ?_) Cost.nonnegative_negativeZero
        (List.mem_map_of_mem hs)
      obtain ⟨u, hu, rfl⟩ := List.mem_map.mp hy
      exact nonnegative_supplyCost hd (hts u hu)
    · rw [hbacks.size, (backs_of_supply (hts s hs) hpart.symm).size, supplySize_node]
      exact lt_foldl_add Nat.one_pos (List.mem_map_of_mem hs)

theorem exists_rank_le_of_within (hd : d.Priced) (ht : t.Valid d.supplying)
    (hc : d.supply t = .ok c) (hs : s.Within t) :
    s.Valid d.supplying ∧ ∃ part, d.supply s = .ok part ∧ part.rank ≤ c.rank := by
  induction hs generalizing c with
  | refl => exact ⟨ht, c, hc, le_rfl⟩
  | child hmem _ ih =>
    obtain ⟨part, hpart, hlt⟩ := rank_lt_of_child hd ht hc hmem
    obtain ⟨hvalid, inner, hinner, hle⟩ := ih (ht.child hmem) hpart
    exact ⟨hvalid, inner, hinner, hle.trans hlt.le⟩

theorem exists_within_of_mem_names (ht : t.Valid d.supplying) {name : String}
    (h : name ∈ (d.provenance t).names) : ∃ s, Derivation.Within s t ∧ d.symbolName s.symbol = name := by
  induction ht with
  | @node X r ts _ _ _ ih =>
    rw [provenance_node, Provenance.names] at h
    rcases List.mem_cons.mp h with rfl | h
    · exact ⟨_, .refl _, rfl⟩
    · obtain ⟨tree, htree, h⟩ := Provenance.mem_namesAll_iff.mp h
      obtain ⟨u, hu, rfl⟩ := List.mem_map.mp htree
      obtain ⟨s, hs, hname⟩ := ih u hu h
      exact ⟨s, .child hu hs, hname⟩

theorem live_of_valid (ht : t.Valid d.supplying) : t.symbol ∈ d.liveSymbols := by
  cases ht with
  | node hrule _ _ => exact live_of_mem_rules hrule.1

end Draft

end QueryGrammar
