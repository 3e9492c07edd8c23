import QueryGrammar.Proofs.Finish.Preferred
import QueryGrammar.Proofs.Finish.Stored
import QueryGrammar.Proofs.Semantic.Deferred
import QueryGrammar.Proofs.Workspace.Rooted
/-!
The preference among all candidates that the rules of one draft give, whatever the search has stored
before it tries them. Their keys are made of names that were registered, so it is a strict order. The
order of registration shows only where the best have an empty tree of semantics beside none at all.
-/
namespace QueryGrammar

namespace Draft

variable {d : Draft} {best : Candidates} {X : SymbolId} {r : Rule} {c : Candidate}

/-! ### What the rules of a draft give -/

/-- A rule of the draft gives the candidate, over candidates that such rules give. -/
inductive Gives (d : Draft) : Candidate → Prop where
  | rule {best : Candidates} {X : SymbolId} {r : Rule} {c : Candidate}
      (stored : ∀ p ∈ best, Gives d p.2) (rule : r ∈ d.rules X)
      (made : d.candidateBy best X r = some c) : Gives d c

theorem exists_mem_of_lookup (h : best.lookup X = some c) : ∃ p ∈ best, p.2 = c := by
  obtain ⟨before, after, rfl, -⟩ := List.lookup_eq_some_iff.mp h
  exact ⟨(X, c), by simp, rfl⟩

/-- Each part of a candidate is one of those stored. -/
theorem exists_mem_of_parts {needed : List SymbolId} {parts : List Candidate}
    (h : needed.map (fun Y => best.lookup Y) = parts.map some) (hc : c ∈ parts) :
    ∃ p ∈ best, p.2 = c := by
  have hmem : some c ∈ needed.map fun Y => best.lookup Y := h ▸ List.mem_map_of_mem hc
  obtain ⟨Y, -, hlookup⟩ := List.mem_map.mp hmem
  exact exists_mem_of_lookup hlookup

section Made

variable (hd : d.Searchable) (hr : r ∈ d.rules X)
include hd hr

theorem made_leaf (hcan : r.CanSupply) (hlexical : r.expansion.isLexical = true)
    {text : List Segment} (h : leafCandidate d.vocabulary (d.symbolName X) r.semantic
      (r.insertionCost.getD 0) text = .ok c) : c.Made d.vocabulary := by
  obtain ⟨semantic, hsemantic, h⟩ := Outcome.ok_of_bind h
  cases h
  exact {
    cost := nonnegative_insertionCost hd.priced hr hcan hlexical
    semantic := within_attachedOver ((hd.consistent.rules X r hr).semantics) within_none hsemantic
    size := rfl
    key := rfl }

theorem made_composed {parts : List Candidate} (hparts : ∀ p ∈ parts, p.Made d.vocabulary)
    (h : composedCandidate d.vocabulary (d.symbolName X) r.semantic parts = .ok c) :
    c.Made d.vocabulary := by
  obtain ⟨inner, hinner, h⟩ := Outcome.ok_of_bind h
  obtain ⟨semantic, hsemantic, h⟩ := Outcome.ok_of_bind h
  cases h
  refine { cost := ?_, semantic := ?_, size := ?_, key := rfl }
  · dsimp only
    rw [← List.foldl_map]
    refine Cost.Nonnegative.sum (fun y hy => ?_) Cost.nonnegative_negativeZero
    obtain ⟨p, hp, rfl⟩ := List.mem_map.mp hy
    exact (hparts p hp).cost
  · refine within_attachedOver (hd.consistent.rules X r hr).semantics
      (within_mergeAll (fun part hpart => ?_) within_none hinner) hsemantic
    obtain ⟨p, hp, rfl⟩ := List.mem_map.mp hpart
    exact (hparts p hp).semantic
  · have hsizes : parts.map (·.size) = (parts.map (·.tree)).map Provenance.count := by
      rw [List.map_map]
      exact List.map_congr_left fun p hp => (hparts p hp).size
    dsimp only
    rw [← List.foldl_map, hsizes, Provenance.foldl_count, Provenance.count]

end Made

theorem Gives.made (hd : d.Searchable) (h : d.Gives c) : c.Made d.vocabulary := by
  induction h with
  | @rule best X r c _ hr hmade ih =>
    obtain ⟨hcan, ⟨text, htext, h⟩ | ⟨-, parts, hparts, h⟩⟩ := candidateBy_eq_some_iff.mp hmade
    · exact made_leaf hd hr hcan (isLexical_of_text htext) h
    · refine made_composed hd hr (fun part hpart => ?_) h
      obtain ⟨p, hp, rfl⟩ := exists_mem_of_parts hparts hpart
      exact ih p hp

/-! ### Rules that attach something -/

theorem ne_empty_of_merge {v : Vocabulary} {f g forest : Forest} (hf : f ≠ [])
    (h : v.merge f g = .ok forest) : forest ≠ [] := by
  obtain ⟨_, -, h⟩ := Outcome.ok_of_bind h
  cases h
  obtain ⟨n, hn⟩ := List.exists_mem_of_ne_nil f hf
  obtain ⟨m, hm, -⟩ := Keyed.exists_mem_distinct v.renderNode (List.mem_append_left g hn)
  exact List.ne_nil_of_mem hm

theorem attachedOver_ne_empty {v : Vocabulary} {attachment : Option Attachment}
    {inner result : Option Forest} (hattachment : ∀ a, attachment = some a → a.ids ≠ [])
    (hinner : inner ≠ some []) (h : attachedOver v attachment inner = .ok result) :
    result ≠ some [] := by
  unfold attachedOver at h
  split at h
  · cases h
    exact hinner
  next forest =>
    cases h
    rintro ⟨⟩
    exact hattachment _ rfl rfl
  next forest _ =>
    obtain ⟨g, hg, rfl⟩ := Outcome.map_eq_ok_iff.mp h
    have hforest : forest ≠ [] := by
      rintro rfl
      exact hattachment _ rfl rfl
    simpa using ne_empty_of_merge hforest hg
  next chain =>
    obtain ⟨g, hg, rfl⟩ := Outcome.map_eq_ok_iff.mp h
    obtain ⟨id, rest, rfl⟩ := List.exists_cons_of_ne_nil (hattachment _ rfl)
    rw [Vocabulary.eq_nested_of_applyChain hg, Vocabulary.nested]
    simp

theorem mergeAll_ne_empty {v : Vocabulary} {parts : List (Option Forest)}
    {acc result : Option Forest} (hparts : ∀ part ∈ parts, part ≠ some []) (hacc : acc ≠ some [])
    (h : mergeAll v parts acc = .ok result) : result ≠ some [] := by
  induction parts generalizing acc with
  | nil =>
    cases h
    exact hacc
  | cons part parts ih =>
    rw [List.forall_mem_cons] at hparts
    cases part with
    | none => exact ih hparts.2 hacc h
    | some forest =>
      cases acc with
      | none => exact ih hparts.2 hparts.1 h
      | some old =>
        obtain ⟨merged, hmerged, h⟩ := Outcome.ok_of_bind h
        refine ih hparts.2 ?_ h
        simpa using ne_empty_of_merge (by simpa using hacc) hmerged

/-- Only what attaches an empty tree gives one. -/
theorem Gives.semantic_ne_empty
    (hfull : ∀ X, ∀ r ∈ d.rules X, ∀ a, r.semantic = some a → a.ids ≠ []) (h : d.Gives c) :
    c.semantic ≠ some [] := by
  induction h with
  | @rule best X r c _ hr hmade ih =>
    obtain ⟨-, ⟨text, -, h⟩ | ⟨-, parts, hparts, h⟩⟩ := candidateBy_eq_some_iff.mp hmade
    · obtain ⟨semantic, hsemantic, h⟩ := Outcome.ok_of_bind h
      cases h
      exact attachedOver_ne_empty (hfull X r hr) (by simp) hsemantic
    · obtain ⟨inner, hinner, h⟩ := Outcome.ok_of_bind h
      obtain ⟨semantic, hsemantic, h⟩ := Outcome.ok_of_bind h
      cases h
      refine attachedOver_ne_empty (hfull X r hr) (mergeAll_ne_empty ?_ (by simp) hinner) hsemantic
      intro part hpart
      obtain ⟨c, hc, rfl⟩ := List.mem_map.mp hpart
      obtain ⟨p, hp, rfl⟩ := exists_mem_of_parts hparts hc
      exact ih p hp

/-! ### Trying a rule -/

/-- A rule that is tried is tried as a candidate against the one stored for its symbol. -/
theorem lookup_tryRule (hplain : r.edit = none) (hc : d.candidateBy best X r = some c) :
    (d.tryRule best (X, r)).lookup X = Candidate.keep (best.lookup X) c := by
  rw [tryRule, improveBy, if_neg (by simp [Rule.isEdit, hplain]), hc]
  dsimp only
  rw [Candidate.keep]
  split
  · exact Candidates.lookup_put_self
  · rfl

end Draft

/-- The semantics of a draft that the search may be given were registered from nothing. -/
theorem Reached.grown {d : Draft} (h : Reached d) : d.vocabulary.Grown := by
  have hinvariant := vocabulary_callInvariant fun hv h => Vocabulary.Grown.register hv h
  have hbuilt : ∀ {ws : Workspace}, Built ws →
      ws.draft.Consistent ∧ ws.draft.vocabulary.Grown := fun h =>
    h.induction hinvariant ⟨Draft.consistent_empty, .start⟩
  cases h with
  | built h => exact (hbuilt h).2
  | @prepared ws h hstart =>
    have hfilled : ws.draft.filled.Consistent ∧ ws.draft.filled.vocabulary.Grown :=
      StopWords.keeps_fill hinvariant.toStepInvariant ws.draft (hbuilt h)
    have htokens := congrArg Draft.vocabulary (hfilled.1.trimmed hstart).tokenized.rest
    rw [Draft.prepared, htokens, Draft.trimmed_vocabulary]
    exact hfilled.2

open Candidate in
/-- The preference is a strict order of all candidates that the rules of a draft give. Two that
differ are told apart exactly if they are not twins, and the order of trying candidates shows exactly
where twins are among the best of them; trying a rule is trying its candidate. There are no twins
where no rule attaches an empty tree. -/
theorem Reached.preference_exactly {d : Draft} (h : Reached d) :
    (∀ c, d.Gives c → 0 ≤ c.cost ∧ c.isBetter c = false) ∧
    (∀ a b, d.Gives a → d.Gives b → a.isBetter b = true → b.isBetter a = false) ∧
    (∀ a b c, d.Gives a → d.Gives b → d.Gives c →
      a.isBetter b = true → b.isBetter c = true → a.isBetter c = true) ∧
    (∀ a b, d.Gives a → d.Gives b → ¬ a.Same b →
      ((a.isBetter b = !b.isBetter a) ↔ ¬ a.Twins b)) ∧
    (∀ cs : List Candidate, (∀ c ∈ cs, d.Gives c) →
      ((∀ ds : List Candidate, ds.Perm cs → Option.Rel Same (winner ds) (winner cs)) ↔
        ∀ a ∈ cs, ∀ b ∈ cs, a.Twins b → ∃ c ∈ cs, c.isBetter a = true)) ∧
    (∀ best X r c, r.edit = none → d.candidateBy best X r = some c →
      (d.tryRule best (X, r)).lookup X = keep (best.lookup X) c) ∧
    ((∀ X, ∀ r ∈ d.rules X, ∀ a, r.semantic = some a → a.ids ≠ []) →
      ∀ a b, d.Gives a → d.Gives b → ¬ a.Twins b) := by
  have hmade : ∀ {c}, d.Gives c → c.Made d.vocabulary := fun hc => hc.made h.searchable
  refine ⟨fun c hc => ⟨(hmade hc).cost, ?_⟩, fun a b ha hb hab => ?_,
    fun a b c ha hb hc hab hbc => ?_, fun a b ha hb hne => ?_, fun cs hcs => ?_,
    fun best X r c hplain hc => Draft.lookup_tryRule hplain hc, fun hfull a b ha hb htwins => ?_⟩
  · exact ((hmade hc).not_isBetter_iff (hmade hc)).mpr le_rfl
  · have hlt := ((hmade ha).isBetter_iff (hmade hb)).mp hab
    exact ((hmade hb).not_isBetter_iff (hmade ha)).mpr hlt.le
  · have hab := ((hmade ha).isBetter_iff (hmade hb)).mp hab
    have hbc := ((hmade hb).isBetter_iff (hmade hc)).mp hbc
    exact ((hmade ha).isBetter_iff (hmade hc)).mpr (hab.trans hbc)
  · exact (hmade ha).exactly_one_iff (hmade hb) h.grown hne
  · exact winner_perm_iff h.grown fun c hc => hmade (hcs c hc)
  · rcases htwins.semantic with ⟨-, hempty⟩ | ⟨hempty, -⟩
    · exact hb.semantic_ne_empty hfull hempty
    · exact ha.semantic_ne_empty hfull hempty

/-! ### A word with and without an empty tree -/

/-- One word for a thing, at this cost and with this attached. -/
def wordWay (cost : Float) (attachment : Option Attachment) : Proposal where
  rhs := .terminal "x" .verbatim
  semantic := attachment
  insertionCost := some cost

/-- The rule that it is registered as. -/
def wordRule (cost : Float) (attachment : Option Attachment) : Rule where
  expansion := .terminal "x" .verbatim
  semantic := attachment
  insertionCost := some cost

/-- The candidate that the rule gives. -/
def wordCandidate (cost : Float) (semantic : Option Forest) : Candidate where
  cost := cost
  text := [.literal "x"]
  semantic := semantic
  tree := .mk "[a]" [.literal "x"] []
  size := 1
  key := Candidate.keyOf {} [.literal "x"] semantic (.mk "[a]" [.literal "x"] [])

/-- A thing with rules for it, in the order in which they are registered. -/
def wording (ways : List Proposal) : Workspace :=
  ways.foldl (fun ws way => ((Registration.addRule ⟨1⟩ way).perform ws).2)
    ((Registration.newSymbol ["a"]).perform {}).2

theorem built_wording (ways : List Proposal) : Built (wording ways) :=
  List.foldlRecOn ways _ (Built.init.call (.register (.newSymbol ["a"])))
    fun _ h way _ => h.call (.register (.addRule ⟨1⟩ way))

theorem gives_word (ways : List Proposal) (cost : Float) (attachment : Option Attachment)
    {c : Candidate} (i : Nat)
    (hr : ((wording ways).draft.rules ⟨1⟩)[i]? = some (wordRule cost attachment))
    (hc : (wording ways).draft.candidateBy [] ⟨1⟩ (wordRule cost attachment) = some c) :
    (wording ways).draft.Gives c := .rule (by simp) (List.mem_of_getElem? hr) hc

/-- The word three times: plain, with an empty tree and cheaper. -/
def threeWordings : Workspace :=
  wording [wordWay 1.0 none, wordWay 1.0 (some (.fixed [])), wordWay 0.5 none]

/-- What its rules give. -/
def threeWords : List Candidate :=
  [wordCandidate 1.0 none, wordCandidate 1.0 (some []), wordCandidate 0.5 none]

theorem gives_threeWords : ∀ c ∈ threeWords, threeWordings.draft.Gives c := by
  have hgives := gives_word [wordWay 1.0 none, wordWay 1.0 (some (.fixed [])), wordWay 0.5 none]
  simp only [threeWords, List.forall_mem_cons, List.not_mem_nil, false_imp_iff, implies_true,
    and_true]
  exact ⟨hgives 1.0 none 0 rfl rfl, hgives 1.0 (some (.fixed [])) 1 rfl rfl,
    hgives 0.5 none 2 rfl rfl⟩

open Candidate in
/-- Two of three words are twins; as the third is better than both, it is kept in any order. -/
theorem preference_exactly_threeWords :
    (wordCandidate 1.0 none).Twins (wordCandidate 1.0 (some [])) ∧
    ∀ ds : List Candidate, ds.Perm threeWords →
      Option.Rel Same (winner ds) (winner threeWords) := by
  have hplain : (wordCandidate 0.5 none).isBetter (wordCandidate 1.0 none) = true := by
    decide +kernel
  have hempty : (wordCandidate 0.5 none).isBetter (wordCandidate 1.0 (some [])) = true := by
    decide +kernel
  obtain ⟨-, -, -, -, hwinner, -⟩ :=
    (Reached.built (built_wording _)).preference_exactly (d := threeWordings.draft)
  refine ⟨⟨by decide +kernel, rfl, Or.inl ⟨rfl, rfl⟩, rfl⟩, ?_⟩
  refine (hwinner threeWords gives_threeWords).mpr fun a ha b hb htwins => ?_
  refine ⟨wordCandidate 0.5 none, by simp [threeWords], ?_⟩
  simp only [threeWords, List.mem_cons, List.not_mem_nil, or_false] at ha hb
  rcases ha with rfl | rfl | rfl
  · exact hplain
  · exact hempty
  · rcases hb with rfl | rfl | rfl
    · exact absurd htwins.cost (by decide +kernel)
    · exact absurd htwins.cost (by decide +kernel)
    · simpa [wordCandidate] using htwins.semantic

/-- Of twins that are found, the one whose rule was registered first is kept. -/
theorem exists_preference_tie : ∃ ws ws' : Workspace, Built ws ∧ Built ws' ∧ ∃ a b,
    (ws.draft.Gives a ∧ ws.draft.Gives b) ∧ (ws'.draft.Gives a ∧ ws'.draft.Gives b) ∧
      a.semantic ≠ b.semantic ∧ a.isBetter b = false ∧ b.isBetter a = false ∧
      (ws.draft.candidates.lookup ⟨1⟩).map (·.semantic) = some a.semantic ∧
      (ws'.draft.candidates.lookup ⟨1⟩).map (·.semantic) = some b.semantic := by
  let plain := wordWay 1.0 none
  let empty := wordWay 1.0 (some (.fixed []))
  refine ⟨wording [plain, empty], wording [empty, plain], built_wording _, built_wording _,
    wordCandidate 1.0 none, wordCandidate 1.0 (some []), ⟨?_, ?_⟩, ⟨?_, ?_⟩, ?_, ?_, ?_, ?_, ?_⟩
  · exact gives_word _ 1.0 none 0 rfl rfl
  · exact gives_word _ 1.0 (some (.fixed [])) 1 rfl rfl
  · exact gives_word _ 1.0 none 1 rfl rfl
  · exact gives_word _ 1.0 (some (.fixed [])) 0 rfl rfl
  · decide
  · decide +kernel
  · decide +kernel
  · decide +kernel
  · decide +kernel

end QueryGrammar
