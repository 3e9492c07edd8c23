import QueryGrammar.Proofs.Finish.Stable
/-!
The search for insertions finds the cheapest ones. No rule gives anything better than what is found
at the end, so by induction over a derivation what is found for its symbol costs no more: sums of
smaller costs are smaller. This takes that semantics compose wherever there are candidates for all
parts, which is so unless rules defer their semantics or semantics forbid to be named twice.
-/
namespace QueryGrammar

namespace Draft

variable {d : Draft} {best : Candidates} {X : SymbolId} {r : Rule} {c : Candidate}
  {t : Derivation SymbolId Rule} {ts : List (Derivation SymbolId Rule)}

/-- Rules attach fixed semantics, and any two may stand side by side. -/
structure Composes (d : Draft) : Prop where
  fixed : ∀ X, ∀ r ∈ d.rules X, ∀ chain, r.semantic ≠ some (.deferred chain)
  repeatable : d.vocabulary.Repeatable

section Composes

variable {v : Vocabulary}

theorem exists_mergeAll (hv : v.Repeatable) {parts : List (Option Forest)} {acc : Option Forest}
    (hparts : ∀ part ∈ parts, Within v.Registered part) (hacc : Within v.Registered acc) :
    ∃ result, mergeAll v parts acc = .ok result := by
  induction parts generalizing acc with
  | nil => exact ⟨acc, rfl⟩
  | cons part parts ih =>
    have hpart := hparts part List.mem_cons_self
    have hrest := fun p hp => hparts p (List.mem_cons_of_mem _ hp)
    cases part with
    | none => exact ih hrest hacc
    | some forest =>
      cases acc with
      | none => exact ih hrest hpart
      | some old =>
        obtain ⟨merged, hmerged⟩ := hv.exists_merge (hacc old rfl) (hpart forest rfl)
        have hwithin : Within v.Registered (some merged) := by
          intro f hf id hid
          obtain rfl := Option.some.inj hf
          exact (Vocabulary.mem_of_merge hmerged hid).elim (hacc old rfl id) (hpart forest rfl id)
        obtain ⟨result, hresult⟩ := ih hrest hwithin
        exact ⟨result, Outcome.bind_eq_ok_iff.mpr ⟨merged, hmerged, hresult⟩⟩

variable (hd : d.Consistent) (hcomposes : d.Composes)
include hd

theorem within_registered (hc : Within d.Attaches c.semantic) :
    Within d.vocabulary.Registered c.semantic := by
  intro f hf id hid
  obtain ⟨X, r, hr, a, ha, hmem⟩ := hc f hf id hid
  exact (hd.rules X r hr).semantics a ha id hmem

include hcomposes

theorem exists_attachedOver (hr : r ∈ d.rules X) {inner : Option Forest}
    (hinner : Within d.vocabulary.Registered inner) :
    ∃ result, attachedOver d.vocabulary r.semantic inner = .ok result := by
  cases hsemantic : r.semantic with
  | none => exact ⟨inner, rfl⟩
  | some attachment =>
    cases attachment with
    | deferred chain => exact absurd hsemantic (hcomposes.fixed X r hr chain)
    | fixed forest =>
      cases inner with
      | none => exact ⟨some forest, rfl⟩
      | some inner =>
        have hforest := (hd.rules X r hr).semantics _ hsemantic
        obtain ⟨merged, hmerged⟩ :=
          hcomposes.repeatable.exists_merge hforest (hinner inner rfl)
        exact ⟨some merged, Outcome.map_eq_ok_iff.mpr ⟨merged, hmerged, rfl⟩⟩

theorem exists_leafCandidate (hr : r ∈ d.rules X) (cost : Float) (text : List Segment) :
    ∃ c, leafCandidate d.vocabulary (d.symbolName X) r.semantic cost text = .ok c ∧
      c.cost = cost := by
  obtain ⟨semantic, hsemantic⟩ := exists_attachedOver hd hcomposes hr within_none
  exact ⟨_, Outcome.bind_eq_ok_iff.mpr ⟨semantic, hsemantic, rfl⟩, rfl⟩

theorem exists_composedCandidate (hr : r ∈ d.rules X) {parts : List Candidate}
    (hparts : ∀ part ∈ parts, d.CandidateOf part) :
    ∃ c, composedCandidate d.vocabulary (d.symbolName X) r.semantic parts = .ok c ∧
      c.cost = (parts.map (·.cost)).foldl (· + ·) (-0.0) := by
  have hregistered : ∀ part ∈ parts.map (·.semantic), Within d.vocabulary.Registered part := by
    intro part hpart
    obtain ⟨p, hp, rfl⟩ := List.mem_map.mp hpart
    exact within_registered hd (hparts p hp).semantic
  obtain ⟨inner, hinner⟩ := exists_mergeAll hcomposes.repeatable hregistered within_none
  obtain ⟨semantic, hsemantic⟩ := exists_attachedOver hd hcomposes hr
    (within_mergeAll hregistered within_none hinner)
  refine ⟨_, Outcome.bind_eq_ok_iff.mpr ⟨inner, hinner,
    Outcome.bind_eq_ok_iff.mpr ⟨semantic, hsemantic, rfl⟩⟩, ?_⟩
  exact List.foldl_map.symm

end Composes

/-! ### What is found -/

/-- No rule makes the symbol cheaper than what is found for it. -/
theorem Searchable.exists_amount_le (hd : d.Searchable) (hr : r ∈ d.rules X)
    (hplain : r.edit = none) (hc : d.candidateBy d.candidates X r = some c) :
    ∃ b, d.candidates.lookup X = some b ∧ Cost.amount b.cost ≤ Cost.amount c.cost := by
  obtain ⟨b, hb, hnot⟩ := hd.settled_candidates hr hplain c hc
  have hle : ¬ c.rank < b.rank := by
    rw [← hd.stored_candidates.rank_lt hd hr hplain hc hb, hnot]
    simp
  exact ⟨b, hb, Candidate.amount_le_of_rank_le (not_lt.mp hle)⟩

/-- Candidates for all trees of a list that cost no more than these. -/
theorem exists_parts {ts : List (Derivation SymbolId Rule)}
    (h : ∀ t ∈ ts, ∃ b, best.lookup t.symbol = some b ∧
      Cost.amount b.cost ≤ Cost.amount (supplyCost t)) :
    ∃ parts : List Candidate, (ts.map Derivation.symbol).map (fun Y => best.lookup Y) =
        parts.map some ∧
      List.Forall₂ (fun x y => Cost.amount x ≤ Cost.amount y) (parts.map (·.cost))
        (ts.map supplyCost) := by
  induction ts with
  | nil => exact ⟨[], rfl, .nil⟩
  | cons t ts ih =>
    obtain ⟨b, hb, hle⟩ := h t List.mem_cons_self
    obtain ⟨parts, hparts, hall⟩ := ih fun u hu => h u (List.mem_cons_of_mem _ hu)
    refine ⟨b :: parts, ?_, .cons hle hall⟩
    rw [List.map_cons, List.map_cons, List.map_cons, hb, hparts]

/-- What is found for the symbol of a derivation costs no more than the derivation. -/
theorem Searchable.exists_le_supplyCost (hd : d.Searchable) (hcomposes : d.Composes)
    (ht : t.Valid d.supplying) : ∃ b, d.candidates.lookup t.symbol = some b ∧
      Cost.amount b.cost ≤ Cost.amount (supplyCost t) := by
  induction ht with
  | @node X r ts hrule hparts hts ih =>
    obtain ⟨hr, hplain, hcan⟩ := hrule
    rw [Derivation.symbol, supplyCost_node]
    cases htext : d.lexicalText? r.expansion with
    | some text =>
      obtain ⟨c, hc, hcost⟩ :=
        exists_leafCandidate hd.consistent hcomposes hr (r.insertionCost.getD 0) text
      rw [if_pos (isLexical_of_text htext), ← hcost]
      exact hd.exists_amount_le hr hplain
        (candidateBy_eq_some_iff.mpr ⟨hcan, Or.inl ⟨text, htext, hc⟩⟩)
    | none =>
      obtain ⟨parts, hlookup, hall⟩ := exists_parts ih
      rw [hparts] at hlookup
      have hknown : ∀ part ∈ parts, ∃ Y, d.candidates.lookup Y = some part := by
        intro part hpart
        have hmem : some part ∈ parts.map some := List.mem_map_of_mem hpart
        rw [← hlookup] at hmem
        obtain ⟨Y, -, hY⟩ := List.mem_map.mp hmem
        exact ⟨Y, hY⟩
      have hcandidates : ∀ part ∈ parts, d.CandidateOf part := by
        intro part hpart
        obtain ⟨Y, hY⟩ := hknown part hpart
        exact ((sourced_candidates d).lookup hY).candidateOf
      obtain ⟨c, hc, hcost⟩ := exists_composedCandidate hd.consistent hcomposes hr hcandidates
      have hcandidate : d.candidateBy d.candidates X r = some c :=
        candidateBy_eq_some_iff.mpr ⟨hcan, Or.inr ⟨htext, parts, hlookup, hc⟩⟩
      obtain ⟨b, hb, hle⟩ := hd.exists_amount_le hr hplain hcandidate
      refine ⟨b, hb, hle.trans ?_⟩
      rw [if_neg (not_isLexical_iff.mpr htext), hcost]
      refine Cost.amount_sum_mono (fun x hx => ?_) (fun y hy => ?_) Cost.nonnegative_negativeZero
        Cost.nonnegative_negativeZero le_rfl hall
      · obtain ⟨part, hpart, rfl⟩ := List.mem_map.mp hx
        obtain ⟨Y, hY⟩ := hknown part hpart
        exact hd.stored_candidates.nonnegative hd hY
      · obtain ⟨u, hu, rfl⟩ := List.mem_map.mp hy
        exact nonnegative_supplyCost hd.priced (hts u hu)

/-- A candidate for a symbol is as cheap as each of its insertion derivations and belongs to one. -/
theorem Searchable.cost_of_mem_candidates (hd : d.Searchable) (hcomposes : d.Composes)
    (h : (X, c) ∈ d.candidates) :
    (∀ t : Derivation SymbolId Rule, t.Valid d.supplying → t.symbol = X → c.cost ≤ supplyCost t) ∧
      ∃ t : Derivation SymbolId Rule, t.Valid d.supplying ∧ t.symbol = X ∧ c.cost = supplyCost t := by
  have hlookup := (Candidates.mem_iff_lookup hd.stored_candidates.keys).mp h
  obtain ⟨t, ht, hsymbol, hsupply⟩ := (sourced_candidates d (X, c) h).exists_supply
  refine ⟨fun u hu hX => ?_, t, ht, hsymbol, (backs_of_supply ht hsupply).cost⟩
  obtain ⟨b, hb, hle⟩ := hd.exists_le_supplyCost hcomposes hu
  rw [hX, hlookup] at hb
  obtain rfl := Option.some.inj hb
  exact (Cost.le_iff_amount (hd.stored_candidates.nonnegative hd hlookup)
    (nonnegative_supplyCost hd.priced hu)).mpr hle

end Draft

/-- A symbol has a candidate exactly when it has an insertion derivation, and the candidate costs
what the cheapest of these does. -/
theorem Reached.candidates_cheapest {d : Draft} (h : Reached d) (hcomposes : d.Composes)
    (X : SymbolId) :
    ((∃ c, (X, c) ∈ d.candidates) ↔
      ∃ t : Derivation SymbolId Rule, t.Valid d.supplying ∧ t.symbol = X) ∧
    ∀ c, (X, c) ∈ d.candidates →
      (∀ t : Derivation SymbolId Rule, t.Valid d.supplying → t.symbol = X →
        c.cost ≤ Draft.supplyCost t) ∧
      ∃ t : Derivation SymbolId Rule, t.Valid d.supplying ∧ t.symbol = X ∧
        c.cost = Draft.supplyCost t := by
  have hd := h.searchable
  refine ⟨⟨?_, ?_⟩, fun c hc => hd.cost_of_mem_candidates hcomposes hc⟩
  · rintro ⟨c, hc⟩
    obtain ⟨t, ht, hsymbol, -⟩ := (d.sourced_candidates (X, c) hc).exists_supply
    exact ⟨t, ht, hsymbol⟩
  · rintro ⟨t, ht, rfl⟩
    obtain ⟨c, hc, -⟩ := hd.exists_le_supplyCost hcomposes ht
    exact ⟨c, (Candidates.mem_iff_lookup hd.stored_candidates.keys).mpr hc⟩

theorem composes_greetings : greetings.draft.Composes where
  fixed X r hr chain hchain := by
    have hnone : ∀ Y ∈ greetings.draft.liveSymbols, ∀ q ∈ greetings.draft.rules Y,
        q.semantic = none := by decide +kernel
    simp [hnone X (Draft.live_of_mem_rules hr) r hr] at hchain
  repeatable := by
    have hempty : greetings.draft.vocabulary.definitions = [] := by decide +kernel
    simp [Vocabulary.Repeatable, hempty]

/-- Two greetings cost no less than twice the cheaper word. -/
theorem candidates_cheapest_greetings : ∃ c, (Draft.start, c) ∈ greetings.draft.candidates ∧
    c.text = [.literal "hi", .literal "hi"] ∧
    ∀ t : Derivation SymbolId Rule, t.Valid greetings.draft.supplying → t.symbol = Draft.start →
      c.cost ≤ Draft.supplyCost t := by
  have htext : (greetings.draft.candidates.lookup Draft.start).map (·.text) =
      some [.literal "hi", .literal "hi"] := by decide +kernel
  obtain ⟨c, hlookup, hc⟩ := Option.map_eq_some_iff.mp htext
  obtain ⟨before, after, heq, -⟩ := List.lookup_eq_some_iff.mp hlookup
  have hmem : (Draft.start, c) ∈ greetings.draft.candidates := by simp [heq]
  obtain ⟨-, hcheapest⟩ :=
    Reached.candidates_cheapest (.built built_greetings) composes_greetings Draft.start
  exact ⟨c, hmem, hc, (hcheapest c hmem).1⟩

end QueryGrammar
