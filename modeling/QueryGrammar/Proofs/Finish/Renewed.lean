import QueryGrammar.Proofs.Finish.Stable
/-!
Whether the candidates that are found are made of one another. Each was made by a rule over what was
stored at that moment, and the candidates for the parts may have been replaced by better ones since.
The rule is tried again then, but what it gives over the better parts need not be better, and it may
give nothing at all: semantics that take a given number of parameters do not fit all parts. In that
case the candidate made before stays, though it is made of nothing that is stored.
-/
namespace QueryGrammar

namespace Draft

variable {d : Draft} {best before : Candidates} {X : SymbolId} {r : Rule} {b c : Candidate}

/-- What the search has stored at some moment: in the middle of a pass, after so many others. -/
def Visited (d : Draft) (best : Candidates) : Prop :=
  ∃ k done, done <+: d.trials ∧ best = done.foldl d.tryRule (d.afterPasses k)

/-- All parts of the rule have the candidates they had before, or better ones. -/
def NoWorse (before after : Candidates) (r : Rule) : Prop :=
  ∀ Y ∈ r.expansion.needed, ∃ part b, before.lookup Y = some part ∧ after.lookup Y = some b ∧
    (b = part ∨ b.isBetter part = true)

/-- The rule gives this candidate over those stored now, and it is made of them. -/
structure RenewedBy (d : Draft) (best : Candidates) (X : SymbolId) (c : Candidate) (r : Rule) :
    Prop where
  rule : r ∈ d.rules X
  plain : r.edit = none
  gives : d.candidateBy best X r = some c
  parts : ∃ parts : List Candidate,
    r.expansion.needed.map (fun Y => best.lookup Y) = parts.map some ∧
      c.tree.children = parts.map (·.tree) ∧
      (r.expansion.isLexical = false → c.text = parts.flatMap (·.text) ∧
        c.cost = parts.foldl (fun sum p => sum + p.cost) (-0.0))

/-- The rule gave this candidate over those stored before. A part has a better one now, over which
the rule gives nothing, or nothing better. -/
structure OutdatedBy (d : Draft) (best : Candidates) (X : SymbolId) (c : Candidate) (r : Rule)
    (before : Candidates) : Prop where
  rule : r ∈ d.rules X
  plain : r.edit = none
  visited : d.Visited before
  gave : d.candidateBy before X r = some c
  noWorse : NoWorse before best r
  replaced : ∃ Y ∈ r.expansion.needed, best.lookup Y ≠ before.lookup Y
  lost : ∀ c', d.candidateBy best X r = some c' → c' ≠ c ∧ c'.isBetter c = false

/-- Where a rule gave a candidate on the way and its parts have better ones in the end, it gives a
candidate still, the same or a better one. -/
def Progressive (d : Draft) : Prop :=
  ∀ X, ∀ r ∈ d.rules X, r.edit = none → ∀ before c, d.Visited before →
    d.candidateBy before X r = some c → NoWorse before d.candidates r →
      ∃ c', d.candidateBy d.candidates X r = some c' ∧ (c' = c ∨ c'.isBetter c = true)

/-! ### One candidate -/

theorem candidateBy_congr (h : ∀ Y ∈ r.expansion.needed, best.lookup Y = before.lookup Y) :
    d.candidateBy best X r = d.candidateBy before X r := by
  have hmap : r.expansion.needed.map (fun Y => best.lookup Y) =
      r.expansion.needed.map fun Y => before.lookup Y := List.map_congr_left h
  apply Option.ext
  intro c
  rw [candidateBy_eq_some_iff, candidateBy_eq_some_iff, hmap]

/-- A rule that gives a candidate gives it over those stored for its parts. -/
theorem exists_parts_of_candidateBy (hc : d.candidateBy best X r = some c) :
    ∃ parts : List Candidate,
      r.expansion.needed.map (fun Y => best.lookup Y) = parts.map some ∧
        c.tree.children = parts.map (·.tree) ∧
        (r.expansion.isLexical = false → c.text = parts.flatMap (·.text) ∧
          c.cost = parts.foldl (fun sum p => sum + p.cost) (-0.0)) := by
  obtain ⟨-, ⟨text, htext, hmade⟩ | ⟨-, parts, hparts, hmade⟩⟩ := candidateBy_eq_some_iff.mp hc
  · have hlexical := isLexical_of_text htext
    refine ⟨[], by rw [needed_of_lexical hlexical]; rfl, ?_, by simp [hlexical]⟩
    obtain ⟨semantic, -, hmade⟩ := Outcome.ok_of_bind hmade
    cases hmade
    rfl
  · obtain ⟨inner, -, hmade⟩ := Outcome.ok_of_bind hmade
    obtain ⟨semantic, -, hmade⟩ := Outcome.ok_of_bind hmade
    cases hmade
    exact ⟨parts, hparts, rfl, fun _ => ⟨rfl, rfl⟩⟩

theorem noWorse_self (hc : d.candidateBy best X r = some c) : NoWorse best best r := by
  obtain ⟨parts, hparts, -⟩ := exists_parts_of_candidateBy hc
  intro Y hY
  have hmem : best.lookup Y ∈ parts.map some := by
    rw [← hparts]
    exact List.mem_map_of_mem hY
  obtain ⟨part, -, hpart⟩ := List.mem_map.mp hmem
  exact ⟨part, part, hpart.symm, hpart.symm, Or.inl rfl⟩

theorem renewedBy_of_candidateBy (hr : r ∈ d.rules X) (hplain : r.edit = none)
    (hc : d.candidateBy best X r = some c) : d.RenewedBy best X c r :=
  ⟨hr, hplain, hc, exists_parts_of_candidateBy hc⟩

/-! ### Through the search -/

theorem Visited.stored (hd : d.Searchable) (h : d.Visited best) : d.Stored best := by
  obtain ⟨k, done, hdone, rfl⟩ := h
  exact (hd.stored_afterPasses k).foldl_tryRule hd fun x hx => hdone.subset hx

/-- A candidate that is replaced is replaced by a better one. -/
theorem NoWorse.put (hd : d.Searchable) (hs : d.Stored best) (hbefore : d.Stored before)
    (hr : r ∈ d.rules X) (hplain : r.edit = none) (hc : d.candidateBy best X r = some c)
    (hbetter : ∀ b, best.lookup X = some b → c.isBetter b = true) {q : Rule}
    (h : NoWorse before best q) : NoWorse before (best.put X c) q := by
  intro Y hY
  obtain ⟨part, b, hpart, hb, hcases⟩ := h Y hY
  rw [Candidates.lookup_put]
  by_cases hYX : Y = X
  · subst hYX
    refine ⟨part, c, hpart, if_pos rfl, Or.inr ?_⟩
    have hcb := hbetter b hb
    rcases hcases with rfl | hbetterPart
    · exact hcb
    · have hcost := hs.nonnegative_candidateBy hd hr hplain hc
      have hbcost := hs.nonnegative hd hb
      have hpartcost := hbefore.nonnegative hd hpart
      have hlow := (Candidate.isBetter_iff hcost hbcost).mp hcb
      have hhigh := (Candidate.isBetter_iff hbcost hpartcost).mp hbetterPart
      exact (Candidate.isBetter_iff hcost hpartcost).mpr (hlow.trans hhigh)
  · exact ⟨part, b, hpart, (if_neg hYX).trans hb, hcases⟩

/-- Each stored candidate was given by a rule over what was stored at some moment, and what was
stored for the parts has only become better. -/
def Originated (d : Draft) (best : Candidates) : Prop :=
  ∀ X c, best.lookup X = some c → ∃ r ∈ d.rules X, r.edit = none ∧ ∃ before, d.Visited before ∧
    d.candidateBy before X r = some c ∧ NoWorse before best r

theorem Originated.tryRule (hd : d.Searchable) (hvisited : d.Visited best) (hr : r ∈ d.rules X)
    (h : d.Originated best) : d.Originated (d.tryRule best (X, r)) := by
  have hs := hvisited.stored hd
  rcases d.tryRule_cases best X r with ⟨heq, -⟩ | ⟨hplain, c, hc, hbetter, heq⟩
  · rw [heq]
    exact h
  · rw [heq]
    intro Z e he
    rw [Candidates.lookup_put] at he
    by_cases hZ : Z = X
    · subst hZ
      rw [if_pos rfl] at he
      obtain rfl := Option.some.inj he
      refine ⟨r, hr, hplain, best, hvisited, hc, ?_⟩
      exact (noWorse_self hc).put hd hs hs hr hplain hc hbetter
    · rw [if_neg hZ] at he
      obtain ⟨q, hq, hqplain, before, hbefore, hgave, hkept⟩ := h Z e he
      refine ⟨q, hq, hqplain, before, hbefore, hgave, ?_⟩
      exact hkept.put hd hs (hbefore.stored hd) hr hplain hc hbetter

/-- From any moment of a pass to its end. -/
theorem Originated.foldl_tryRule (hd : d.Searchable) (k : Nat) {done xs : List (SymbolId × Rule)}
    (heq : done ++ xs = d.trials) (h : d.Originated (done.foldl d.tryRule (d.afterPasses k))) :
    d.Originated (d.trials.foldl d.tryRule (d.afterPasses k)) := by
  induction xs generalizing done with
  | nil =>
    rw [List.append_nil] at heq
    rwa [heq] at h
  | cons x xs ih =>
    have hvisited : d.Visited (done.foldl d.tryRule (d.afterPasses k)) :=
      ⟨k, done, ⟨x :: xs, heq⟩, rfl⟩
    have hx : x ∈ d.trials := heq ▸ List.mem_append_right done List.mem_cons_self
    have hnext : d.Originated ((done ++ [x]).foldl d.tryRule (d.afterPasses k)) := by
      rw [List.foldl_append]
      exact h.tryRule hd hvisited (mem_trials_iff.mp hx)
    exact ih (by rw [List.append_assoc]; exact heq) hnext

theorem Searchable.originated_afterPasses (hd : d.Searchable) (k : Nat) :
    d.Originated (d.afterPasses k) := by
  induction k with
  | zero =>
    intro X c hc
    cases hc
  | succ k ih =>
    rw [afterPasses_succ]
    exact Originated.foldl_tryRule hd k (List.nil_append d.trials) ih

theorem Searchable.originated_candidates (hd : d.Searchable) : d.Originated d.candidates := by
  obtain ⟨k, -, -, -, heq⟩ := hd.exists_unchanged
  rw [heq]
  exact hd.originated_afterPasses k

end Draft

/-- Each candidate that is found is given by a rule over the candidates found, or it was given
before a part was replaced by a better one over which the rule gives nothing better. Where rules do
not lose by better parts, all candidates are of the first kind. -/
theorem Reached.candidates_renewed {d : Draft} (h : Reached d) :
    (∀ X c, (X, c) ∈ d.candidates → (∃ r, d.RenewedBy d.candidates X c r) ∨
      ∃ r before, d.OutdatedBy d.candidates X c r before) ∧
    (d.Progressive → ∀ X c, (X, c) ∈ d.candidates → ∃ r, d.RenewedBy d.candidates X c r) := by
  have hd := h.searchable
  have hlookup : ∀ X c, (X, c) ∈ d.candidates → d.candidates.lookup X = some c :=
    fun X c hc => (Candidates.mem_iff_lookup hd.stored_candidates.keys).mp hc
  constructor
  · intro X c hmem
    have hc := hlookup X c hmem
    obtain ⟨r, hr, hplain, before, hvisited, hgave, hkept⟩ := hd.originated_candidates X c hc
    by_cases hgives : d.candidateBy d.candidates X r = some c
    · exact Or.inl ⟨r, Draft.renewedBy_of_candidateBy hr hplain hgives⟩
    · refine Or.inr ⟨r, before, hr, hplain, hvisited, hgave, hkept, ?_, ?_⟩
      · by_contra hsame
        push Not at hsame
        exact hgives ((Draft.candidateBy_congr hsame).trans hgave)
      · intro c' hc'
        obtain ⟨b, hb, hnot⟩ := hd.settled_candidates hr hplain c' hc'
        obtain rfl : b = c := Option.some.inj (hb.symm.trans hc)
        refine ⟨?_, hnot⟩
        rintro rfl
        exact hgives hc'
  · intro hprogressive X c hmem
    have hc := hlookup X c hmem
    obtain ⟨r, hr, hplain, before, hvisited, hgave, hkept⟩ := hd.originated_candidates X c hc
    obtain ⟨c', hc', rfl | hbetter⟩ := hprogressive X r hr hplain before c hvisited hgave hkept
    · exact ⟨r, Draft.renewedBy_of_candidateBy hr hplain hc'⟩
    · obtain ⟨b, hb, hnot⟩ := hd.settled_candidates hr hplain c' hc'
      obtain rfl : b = c := Option.some.inj (hb.symm.trans hc)
      rw [hbetter] at hnot
      cases hnot

/-- A greeting of one word. -/
def greetingWord (text : String) (cost : Float) : Candidate where
  cost := cost
  text := [.literal text]
  semantic := none
  tree := .mk "[greeting]" [.literal text] []
  size := 1
  key := Candidate.keyOf {} [.literal text] none (.mk "[greeting]" [.literal text] [])

/-- The candidates for a greeting are the two words. -/
theorem eq_greetingWord {best : Candidates} (hs : greetings.draft.Stored best) {c : Candidate}
    (hc : best.lookup ⟨1⟩ = some c) :
    c = greetingWord "hello" 0.5 ∨ c = greetingWord "hi" 0.25 := by
  obtain ⟨t, hgrounded, hsymbol, hsupply⟩ := hs.grounded ⟨1⟩ c hc
  have hrules : greetings.draft.rules ⟨1⟩ =
      [{ expansion := .terminal "hello" .verbatim, insertionCost := some 0.5 },
        { expansion := .terminal "hi" .verbatim, insertionCost := some 0.25 }] := rfl
  cases hgrounded.valid with
  | @node X r ts hrule _ _ =>
    obtain rfl : X = ⟨1⟩ := hsymbol
    have hr := hrule.1
    rw [hrules] at hr
    rcases List.mem_cons.mp hr with rfl | hr
    · rw [Draft.supply_leaf rfl] at hsupply
      exact Or.inl (Except.ok.inj hsupply).symm
    · obtain rfl := List.mem_singleton.mp hr
      rw [Draft.supply_leaf rfl] at hsupply
      exact Or.inr (Except.ok.inj hsupply).symm

/-- Two greetings over a cheaper word are cheaper. -/
theorem progressive_greetings : greetings.draft.Progressive := by
  intro X r hr hplain before c hvisited hgave hkept
  have hd := built_greetings.searchable
  by_cases hsame : ∀ Y ∈ r.expansion.needed,
      greetings.draft.candidates.lookup Y = before.lookup Y
  · exact ⟨c, (Draft.candidateBy_congr hsame).trans hgave, Or.inl rfl⟩
  · have hlive : greetings.draft.liveSymbols = [Draft.start, ⟨1⟩] := by decide +kernel
    have hX : X = Draft.start ∨ X = ⟨1⟩ := by
      simpa [hlive] using Draft.live_of_mem_rules hr
    rcases hX with rfl | rfl
    · have hrules : greetings.draft.rules Draft.start =
          [{ expansion := .binary ⟨1⟩ ⟨1⟩ none {} }] := rfl
      rw [hrules] at hr
      obtain rfl := List.mem_singleton.mp hr
      obtain ⟨part, b, hpart, hb, hcases⟩ := hkept ⟨1⟩ (by simp [Expansion.needed])
      have hbetter : b.isBetter part = true := by
        rcases hcases with rfl | hbetter
        · refine absurd ?_ hsame
          simp [Expansion.needed, hpart, hb]
        · exact hbetter
      -- of the two words only one is better than the other
      have hwords : b = greetingWord "hi" 0.25 ∧ part = greetingWord "hello" 0.5 := by
        rcases eq_greetingWord hd.stored_candidates hb with rfl | rfl
        · rcases eq_greetingWord (hvisited.stored hd) hpart with rfl | rfl
          · exact absurd hbetter (by decide +kernel)
          · exact absurd hbetter (by decide +kernel)
        · rcases eq_greetingWord (hvisited.stored hd) hpart with rfl | rfl
          · exact ⟨rfl, rfl⟩
          · exact absurd hbetter (by decide +kernel)
      obtain ⟨rfl, rfl⟩ := hwords
      have hboth : ((greetings.draft.candidateBy [(⟨1⟩, greetingWord "hi" 0.25)] Draft.start
          { expansion := .binary ⟨1⟩ ⟨1⟩ none {} }).bind fun c' =>
            (greetings.draft.candidateBy [(⟨1⟩, greetingWord "hello" 0.5)] Draft.start
              { expansion := .binary ⟨1⟩ ⟨1⟩ none {} }).map fun c => c'.isBetter c) =
                some true := by
        decide +kernel
      obtain ⟨c', hc', hmap⟩ := Option.bind_eq_some_iff.mp hboth
      obtain ⟨c₀, hc₀, hless⟩ := Option.map_eq_some_iff.mp hmap
      have hbefore : greetings.draft.candidateBy [(⟨1⟩, greetingWord "hello" 0.5)] Draft.start
          { expansion := .binary ⟨1⟩ ⟨1⟩ none {} } = some c := by
        rw [← hgave]
        apply Draft.candidateBy_congr
        simp [Expansion.needed, hpart]
      obtain rfl := Option.some.inj (hc₀.symm.trans hbefore)
      refine ⟨c', ?_, Or.inr hless⟩
      rw [← hc']
      apply Draft.candidateBy_congr
      simp [Expansion.needed, hb]
    · refine absurd ?_ hsame
      have hnone : ∀ q ∈ greetings.draft.rules ⟨1⟩, q.expansion.needed = [] := by decide +kernel
      simp [hnone r hr]

/-- The two greetings that are found are two of the word that is found. -/
theorem candidates_renewed_greetings : ∃ c, (Draft.start, c) ∈ greetings.draft.candidates ∧
    ∃ r, greetings.draft.RenewedBy greetings.draft.candidates Draft.start c r := by
  have hsome : (greetings.draft.candidates.lookup Draft.start).isSome = true := by decide +kernel
  obtain ⟨c, hc⟩ := Option.isSome_iff_exists.mp hsome
  obtain ⟨before, after, heq, -⟩ := List.lookup_eq_some_iff.mp hc
  have hmem : (Draft.start, c) ∈ greetings.draft.candidates := by simp [heq]
  obtain ⟨-, hrenewed⟩ := Reached.candidates_renewed (.built built_greetings)
  exact ⟨c, hmem, hrenewed progressive_greetings Draft.start c hmem⟩

/-- Two ways to name a shade, the second cheaper and without semantics. What is shown takes one
argument, which only the first has. -/
def shades : Workspace :=
  let a := ((Registration.newSymbol ["a"]).perform {}).2
  let x := ((Registration.newSymbol ["x"]).perform a).2
  let b := ((Registration.newSymbol ["b"]).perform x).2
  let color := ((Registration.semantic (.argument "color")).perform b).2
  let shown := ((Registration.semantic (.function "shown" 1 1)).perform color).2
  let blue := ((Registration.addRule ⟨1⟩
    { rhs := .terminal "blue" .verbatim
      semantic := some (.fixed [.mk ⟨0⟩ []])
      insertionCost := some 1.0 }).perform shown).2
  let other := ((Registration.addRule ⟨1⟩ (.unary ⟨3⟩)).perform blue).2
  let above := ((Registration.addRule ⟨2⟩ ((Proposal.unary ⟨1⟩).deferred [⟨1⟩])).perform other).2
  ((Registration.addRule ⟨3⟩
    { rhs := .terminal "red" .verbatim, insertionCost := some 0.5 }).perform above).2

theorem built_shades : Built shades :=
  have a := Built.init.call (.register (.newSymbol ["a"]))
  have x := a.call (.register (.newSymbol ["x"]))
  have b := x.call (.register (.newSymbol ["b"]))
  have color := b.call (.register (.semantic (.argument "color")))
  have shown := color.call (.register (.semantic _))
  have blue := shown.call (.register (.addRule ⟨1⟩ _))
  have other := blue.call (.register (.addRule ⟨1⟩ (.unary ⟨3⟩)))
  have above := other.call (.register (.addRule ⟨2⟩ _))
  above.call (.register (.addRule ⟨3⟩ _))

/-- A candidate may stay that no rule gives over the candidates found. -/
theorem exists_candidate_outdated : ∃ ws, Built ws ∧ ∃ X c, (X, c) ∈ ws.draft.candidates ∧
    ∀ r ∈ ws.draft.rules X, r.edit = none →
      ws.draft.candidateBy ws.draft.candidates X r ≠ some c := by
  have hsome : (shades.draft.candidates.lookup ⟨2⟩).isSome = true := by decide +kernel
  obtain ⟨c, hc⟩ := Option.isSome_iff_exists.mp hsome
  obtain ⟨before, after, heq, -⟩ := List.lookup_eq_some_iff.mp hc
  refine ⟨shades, built_shades, ⟨2⟩, c, by simp [heq], ?_⟩
  have hnone : ∀ r ∈ shades.draft.rules ⟨2⟩,
      (shades.draft.candidateBy shades.draft.candidates ⟨2⟩ r).isNone = true := by decide +kernel
  intro r hr _ hgives
  have := hnone r hr
  simp [hgives] at this

end QueryGrammar
