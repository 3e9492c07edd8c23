import QueryGrammar.Proofs.Finish.Stored
/-!
The search for insertions comes to rest. A candidate stored later in the search is made of candidates
stored before, so what a pass still changes has a derivation that is higher than the number of passes
before it. A stored derivation repeats no symbol on a path, which bounds its height: with as many
passes as there are symbols, and one more, the last pass changes nothing.
-/
namespace QueryGrammar

namespace Draft

variable {d : Draft} {best : Candidates} {X Y : SymbolId} {r : Rule} {b c : Candidate}

/-! ### What a pass leaves to do -/

/-- All that the rule could still improve has a derivation of more than `height` symbols. -/
def SettledTo (d : Draft) (height : Nat) (best : Candidates) (X : SymbolId) (r : Rule) : Prop :=
  ∀ c, d.candidateBy best X r = some c →
    (∃ b, best.lookup X = some b ∧ c.isBetter b = false) ∨ height < c.tree.height

theorem Settled.settledTo (h : d.Settled best X r) (height : Nat) :
    d.SettledTo height best X r := fun c hc => Or.inl (h c hc)

theorem SettledTo.mono {m n : Nat} (h : d.SettledTo n best X r) (hle : m ≤ n) :
    d.SettledTo m best X r := fun c hc => (h c hc).imp_right hle.trans_lt

theorem settledTo_zero : d.SettledTo 0 best X r := by
  intro c _
  cases c.tree with
  | mk name text children => exact Or.inr (Nat.succ_pos _)

/-- Only the candidates for the parts of a rule matter. -/
theorem candidateBy_put (h : X ∉ r.expansion.needed) :
    d.candidateBy (best.put X c) Y r = d.candidateBy best Y r := by
  have hmap : r.expansion.needed.map (fun Z => (best.put X c).lookup Z) =
      r.expansion.needed.map fun Z => best.lookup Z := by
    refine List.map_congr_left fun Z hZ => ?_
    rw [Candidates.lookup_put, if_neg (ne_of_mem_of_not_mem hZ h)]
  refine Option.ext fun e => ?_
  rw [candidateBy_eq_some_iff, candidateBy_eq_some_iff, hmap]

theorem height_lt_of_needed (hc : d.candidateBy best X r = some c)
    (hY : Y ∈ r.expansion.needed) (hb : best.lookup Y = some b) :
    b.tree.height < c.tree.height := by
  obtain ⟨-, ⟨text, htext, -⟩ | ⟨-, parts, hparts, hmade⟩⟩ := candidateBy_eq_some_iff.mp hc
  · rw [needed_of_lexical (isLexical_of_text htext)] at hY
    exact absurd hY List.not_mem_nil
  · have hmem : some b ∈ parts.map some := by
      rw [← hparts, ← hb]
      exact List.mem_map_of_mem hY
    obtain ⟨part, hpart, heq⟩ := List.mem_map.mp hmem
    obtain rfl := Option.some.inj heq
    obtain ⟨inner, -, hmade⟩ := Outcome.ok_of_bind hmade
    obtain ⟨semantic, -, hmade⟩ := Outcome.ok_of_bind hmade
    cases hmade
    exact Provenance.height_lt_of_mem (List.mem_map_of_mem hpart)

section Passing

variable {height : Nat} (hd : d.Searchable) (hs : d.Stored best) (hr : r ∈ d.rules X)
  (hplain : r.edit = none) (hc : d.candidateBy best X r = some c)
include hd hs hr hplain hc

/-- What is stored for a symbol makes a difference only to candidates that are higher than it. -/
theorem SettledTo.put (hbetter : ∀ b, best.lookup X = some b → c.isBetter b = true)
    (hheight : height ≤ c.tree.height) {Z : SymbolId} {q : Rule}
    (hq : q ∈ d.rules Z) (hqplain : q.edit = none) (h : d.SettledTo height best Z q) :
    d.SettledTo height (best.put X c) Z q := by
  intro e he
  by_cases hX : X ∈ q.expansion.needed
  · exact Or.inr (hheight.trans_lt (height_lt_of_needed he hX Candidates.lookup_put_self))
  · rw [candidateBy_put hX] at he
    refine (h e he).imp_left ?_
    rintro ⟨b, hb, hnot⟩
    by_cases hZ : Z = X
    · subst hZ
      refine ⟨c, Candidates.lookup_put_self, ?_⟩
      have hless : c.rank < b.rank := (hs.rank_lt hd hr hplain hc hb).mp (hbetter b hb)
      have hle : ¬ e.rank < b.rank := by
        rw [← hs.rank_lt hd hq hqplain he hb, hnot]
        simp
      rw [← Bool.not_eq_true, Candidate.isBetter_iff (hs.nonnegative_candidateBy hd hq hqplain he)
        (hs.nonnegative_candidateBy hd hr hplain hc)]
      exact fun hlt => hle (hlt.trans hless)
    · exact ⟨b, by rw [Candidates.lookup_put, if_neg hZ]; exact hb, hnot⟩

/-- A rule that has just been used gives the same again, or something higher over it. -/
theorem settledTo_put_self (hheight : height ≤ c.tree.height) :
    d.SettledTo height (best.put X c) X r := by
  intro e he
  by_cases hX : X ∈ r.expansion.needed
  · exact Or.inr (hheight.trans_lt (height_lt_of_needed he hX Candidates.lookup_put_self))
  · rw [candidateBy_put hX, hc] at he
    obtain rfl := Option.some.inj he
    refine Or.inl ⟨c, Candidates.lookup_put_self, ?_⟩
    have hcost := hs.nonnegative_candidateBy hd hr hplain hc
    rw [← Bool.not_eq_true, Candidate.isBetter_iff hcost hcost]
    exact lt_irrefl _

end Passing

/-- All rules of a list are settled to a height, except the edits. -/
def AllSettledTo (d : Draft) (height : Nat) (best : Candidates) (xs : List (SymbolId × Rule)) :
    Prop :=
  ∀ x ∈ xs, x.2.edit = none → d.SettledTo height best x.1 x.2

/-- A trial keeps the height that all rules are settled to, and takes its own rule and those tried
before in the same pass one further. -/
theorem AllSettledTo.tryRule (hd : d.Searchable) (hs : d.Stored best) {height : Nat}
    {done : List (SymbolId × Rule)} {x : SymbolId × Rule} (hdone : done ⊆ d.trials)
    (hx : x ∈ d.trials) (hall : d.AllSettledTo height best d.trials)
    (htried : d.AllSettledTo (height + 1) best done) :
    d.AllSettledTo height (d.tryRule best x) d.trials ∧
      d.AllSettledTo (height + 1) (d.tryRule best x) (done ++ [x]) := by
  obtain ⟨X, r⟩ := x
  have hr : r ∈ d.rules X := mem_trials_iff.mp hx
  rcases d.tryRule_cases best X r with ⟨heq, hsettled⟩ | ⟨hplain, c, hc, hbetter, heq⟩
  · rw [heq]
    refine ⟨hall, fun y hy hyplain => ?_⟩
    rcases List.mem_append.mp hy with hy | hy
    · exact htried y hy hyplain
    · obtain rfl := List.mem_singleton.mp hy
      exact (hsettled hyplain).settledTo _
  · have hhigh : height < c.tree.height := by
      rcases hall (X, r) hx hplain c hc with ⟨b, hb, hnot⟩ | hhigh
      · exact absurd (hbetter b hb) (by simp [hnot])
      · exact hhigh
    have hput : ∀ {m : Nat}, m ≤ height + 1 → ∀ y ∈ d.trials, y.2.edit = none →
        d.SettledTo m best y.1 y.2 → d.SettledTo m (best.put X c) y.1 y.2 :=
      fun hm y hy hyplain h => h.put hd hs hr hplain hc hbetter (hm.trans hhigh)
        (mem_trials_iff.mp hy) hyplain
    rw [heq]
    refine ⟨fun y hy hyplain => hput (Nat.le_succ _) y hy hyplain (hall y hy hyplain),
      fun y hy hyplain => ?_⟩
    rcases List.mem_append.mp hy with hy | hy
    · exact hput le_rfl y (hdone hy) hyplain (htried y hy hyplain)
    · obtain rfl := List.mem_singleton.mp hy
      exact settledTo_put_self hd hs hr hplain hc hhigh

/-- A pass settles all rules one further. -/
theorem AllSettledTo.foldl_tryRule (hd : d.Searchable) {height : Nat}
    {done xs : List (SymbolId × Rule)} (heq : done ++ xs = d.trials) (hs : d.Stored best)
    (hall : d.AllSettledTo height best d.trials) (htried : d.AllSettledTo (height + 1) best done) :
    d.AllSettledTo (height + 1) (xs.foldl d.tryRule best) d.trials := by
  induction xs generalizing done best with
  | nil => rwa [← heq, List.append_nil]
  | cons x xs ih =>
    have hdone : done ⊆ d.trials := fun y hy => heq ▸ List.mem_append_left _ hy
    have hx : x ∈ d.trials := heq ▸ List.mem_append_right _ List.mem_cons_self
    obtain ⟨hall', htried'⟩ := AllSettledTo.tryRule hd hs hdone hx hall htried
    exact ih (by rw [List.append_assoc]; exact heq) (hs.tryRule hd (mem_trials_iff.mp hx)) hall'
      htried'

theorem Searchable.allSettledTo_afterPasses (hd : d.Searchable) (k : Nat) :
    d.AllSettledTo k (d.afterPasses k) d.trials := by
  induction k with
  | zero => exact fun _ _ _ => settledTo_zero
  | succ k ih =>
    rw [afterPasses_succ]
    exact .foldl_tryRule hd (List.nil_append _) (hd.stored_afterPasses k) ih (by simp [AllSettledTo])

/-- What would be stored repeats no symbol on a path, so it is no higher than there are symbols. -/
theorem Stored.settled (hd : d.Searchable) (hs : d.Stored best) (hr : r ∈ d.rules X)
    (hplain : r.edit = none) (h : d.SettledTo d.liveSymbols.length best X r) :
    d.Settled best X r := by
  rcases d.tryRule_cases best X r with ⟨-, hsettled⟩ | ⟨-, c, hc, hbetter, -⟩
  · exact hsettled hplain
  · rcases h c hc with ⟨b, hb, hnot⟩ | hhigh
    · exact absurd (hbetter b hb) (by simp [hnot])
    · have hput := hs.put hd hr hplain hc hbetter
      obtain ⟨t, ht, -, hsupply⟩ := hput.grounded X c Candidates.lookup_put_self
      have hknown : c.tree.names ⊆ d.liveSymbols.map d.symbolName := by
        rw [(backs_of_supply ht.valid hsupply).tree]
        intro name hname
        obtain ⟨s, hwithin, rfl⟩ := exists_within_of_mem_names ht.valid hname
        obtain ⟨hvalid, -⟩ := exists_rank_le_of_within hd.priced ht.valid hsupply hwithin
        exact List.mem_map_of_mem (live_of_valid hvalid)
      have hlow := (hput.noRepeat X c Candidates.lookup_put_self).height_le hknown
      rw [List.length_map] at hlow
      exact absurd hhigh hlow.not_gt

/-! ### The end of the search -/

theorem foldl_improveBy_of_settled {xs : List (SymbolId × Rule)}
    (h : ∀ x ∈ xs, x.2.edit = none → d.Settled best x.1 x.2) :
    xs.foldl (fun state x => d.improveBy x.1 state x.2) (best, false) = (best, false) := by
  induction xs with
  | nil => rfl
  | cons x xs ih =>
    have hkeep : d.improveBy x.1 (best, false) x.2 = (best, false) := by
      rcases d.improveBy_cases (best, false) x.1 x.2 with ⟨heq, -⟩ | ⟨hplain, c, hc, hbetter, -⟩
      · exact heq
      · obtain ⟨b, hb, hnot⟩ := h x List.mem_cons_self hplain c hc
        exact absurd (hbetter b hb) (by simp [hnot])
    rw [List.foldl_cons, hkeep]
    exact ih fun y hy => h y (List.mem_cons_of_mem _ hy)

/-- Once something has changed in a pass, the flag stays set. -/
theorem settled_of_foldl_improveBy {xs : List (SymbolId × Rule)} {state : Candidates × Bool}
    (h : (xs.foldl (fun state x => d.improveBy x.1 state x.2) state).2 = false) :
    state.2 = false ∧ (xs.foldl (fun state x => d.improveBy x.1 state x.2) state).1 = state.1 ∧
      ∀ x ∈ xs, x.2.edit = none → d.Settled state.1 x.1 x.2 := by
  induction xs generalizing state with
  | nil => exact ⟨h, rfl, by simp⟩
  | cons x xs ih =>
    rw [List.foldl_cons] at h ⊢
    obtain ⟨hflag, hsame, hsettled⟩ := ih h
    rcases d.improveBy_cases state x.1 x.2 with ⟨heq, hx⟩ | ⟨-, c, -, -, heq⟩
    · rw [heq] at hflag hsame hsettled ⊢
      exact ⟨hflag, hsame, List.forall_mem_cons.mpr ⟨hx, hsettled⟩⟩
    · simp [heq] at hflag

/-- A pass changes nothing exactly when every rule is settled. -/
theorem improve_unchanged_iff : (d.improve best).2 = false ↔
    ∀ X, ∀ r ∈ d.rules X, r.edit = none → d.Settled best X r := by
  rw [improve_eq]
  constructor
  · intro h X r hr
    exact (settled_of_foldl_improveBy h).2.2 (X, r) (mem_trials_iff.mpr hr)
  · intro h
    rw [foldl_improveBy_of_settled fun x hx => h x.1 x.2 (mem_trials_iff.mp hx)]

theorem fst_improve_of_unchanged (h : (d.improve best).2 = false) : (d.improve best).1 = best := by
  rw [improve_eq] at h ⊢
  exact (settled_of_foldl_improveBy h).2.1

/-- Rounds that reach the first pass without change end there. -/
theorem improveRounds_afterPasses {j k : Nat} (hjk : j ≤ k) {rounds : Nat} (hrounds : k - j < rounds)
    (hchanged : ∀ i < k, (d.improve (d.afterPasses i)).2 = true)
    (hlast : (d.improve (d.afterPasses k)).2 = false) :
    d.improveRounds rounds (d.afterPasses j) = d.afterPasses k := by
  induction rounds generalizing j with
  | zero => omega
  | succ rounds ih =>
    unfold improveRounds
    dsimp only
    rcases hjk.eq_or_lt with rfl | hlt
    · rw [hlast]
      exact fst_improve_of_unchanged hlast
    · rw [hchanged j hlt, if_pos rfl]
      exact ih (j := j + 1) hlt (by omega)

/-- The search ends with a pass that changes nothing. -/
theorem Searchable.exists_unchanged (hd : d.Searchable) : ∃ k ≤ d.liveSymbols.length,
    (∀ j < k, (d.improve (d.afterPasses j)).2 = true) ∧
      (d.improve (d.afterPasses k)).2 = false ∧ d.candidates = d.afterPasses k := by
  have hend : (d.improve (d.afterPasses d.liveSymbols.length)).2 = false := by
    refine improve_unchanged_iff.mpr fun X r hr hplain => ?_
    exact (hd.stored_afterPasses _).settled hd hr hplain
      (hd.allSettledTo_afterPasses _ (X, r) (mem_trials_iff.mpr hr) hplain)
  have hex : ∃ k, (d.improve (d.afterPasses k)).2 = false := ⟨_, hend⟩
  have hle : Nat.find hex ≤ d.liveSymbols.length := Nat.find_min' hex hend
  have hchanged : ∀ j < Nat.find hex, (d.improve (d.afterPasses j)).2 = true :=
    fun j hj => by simpa using Nat.find_min hex hj
  refine ⟨Nat.find hex, hle, hchanged, Nat.find_spec hex, ?_⟩
  exact improveRounds_afterPasses (j := 0) (Nat.zero_le _) (by omega) hchanged (Nat.find_spec hex)

theorem Searchable.stored_candidates (hd : d.Searchable) : d.Stored d.candidates := by
  obtain ⟨k, -, -, -, heq⟩ := hd.exists_unchanged
  rw [heq]
  exact hd.stored_afterPasses k

theorem Searchable.settled_candidates (hd : d.Searchable) (hr : r ∈ d.rules X)
    (hplain : r.edit = none) : d.Settled d.candidates X r := by
  obtain ⟨k, -, -, hlast, heq⟩ := hd.exists_unchanged
  rw [heq]
  exact improve_unchanged_iff.mp hlast X r hr hplain

end Draft

/-- The search stores no derivation that repeats a symbol on a path, it ends with a pass that
changes nothing before its bound is reached, and no rule gives anything better than what is found. -/
theorem Reached.candidates_stable {d : Draft} (h : Reached d) :
    (∀ k done, done <+: d.trials → ∀ p ∈ done.foldl d.tryRule (d.afterPasses k), p.2.tree.NoRepeat) ∧
      (∃ k ≤ d.liveSymbols.length, (∀ j < k, (d.improve (d.afterPasses j)).2 = true) ∧
        (d.improve (d.afterPasses k)).2 = false ∧ d.candidates = d.afterPasses k) ∧
      ∀ X ∈ d.liveSymbols, ∀ r ∈ d.rules X, r.edit = none → ∀ c,
        d.candidateBy d.candidates X r = some c →
          ∃ b, d.candidates.lookup X = some b ∧ c.isBetter b = false := by
  have hd := h.searchable
  refine ⟨fun k done hdone p hp => ?_, hd.exists_unchanged, fun X _ r hr hplain =>
    hd.settled_candidates hr hplain⟩
  have hstored := (hd.stored_afterPasses k).foldl_tryRule hd fun x hx => hdone.subset hx
  exact hstored.noRepeat p.1 p.2 ((Candidates.mem_iff_lookup hstored.keys).mp hp)

/-- The start symbol is two greetings, and the second way to greet is the cheaper one. -/
def greetings : Workspace :=
  let declared := ((Registration.newSymbol ["greeting"]).perform {}).2
  let one := ((Registration.addRule ⟨1⟩
    { rhs := .terminal "hello" .verbatim, insertionCost := some 0.5 }).perform declared).2
  let two := ((Registration.addRule ⟨1⟩
    { rhs := .terminal "hi" .verbatim, insertionCost := some 0.25 }).perform one).2
  ((Registration.addRule Draft.start (.binary ⟨1⟩ ⟨1⟩)).perform two).2

theorem built_greetings : Built greetings :=
  have declared := Built.init.call (.register (.newSymbol ["greeting"]))
  have one := declared.call (.register (.addRule ⟨1⟩ _))
  have two := one.call (.register (.addRule ⟨1⟩ _))
  two.call (.register (.addRule Draft.start _))

theorem candidates_stable_greetings : greetings.draft.candidates.map Prod.fst = [⟨1⟩, Draft.start] ∧
    ∃ k ≤ 2, (greetings.draft.improve (greetings.draft.afterPasses k)).2 = false ∧
      greetings.draft.candidates = greetings.draft.afterPasses k := by
  obtain ⟨-, ⟨k, hk, -, hlast, heq⟩, -⟩ := Reached.candidates_stable (.built built_greetings)
  have hlive : greetings.draft.liveSymbols.length = 2 := by decide +kernel
  exact ⟨by decide +kernel, k, hlive ▸ hk, hlast, heq⟩

end QueryGrammar
