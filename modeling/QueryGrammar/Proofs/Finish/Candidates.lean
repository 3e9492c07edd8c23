import QueryGrammar.Finish.Insertion
import QueryGrammar.Proofs.Draft.Lookup
import QueryGrammar.Proofs.Semantic.Compose
/-!
What an insertion may bring in: its semantics are attached by rules of the draft, and its derivation
names live symbols only.
-/
namespace QueryGrammar

namespace Provenance

mutual

/-- The names of the symbols in a derivation. -/
def names : Provenance → List String
  | mk symbol _ children => symbol :: namesAll children

def namesAll : List Provenance → List String
  | [] => []
  | t :: ts => names t ++ namesAll ts

end

theorem mem_namesAll_iff {name : String} {ts : List Provenance} :
    name ∈ namesAll ts ↔ ∃ t ∈ ts, name ∈ t.names := by
  induction ts with
  | nil => simp [namesAll]
  | cons t ts ih => simp [namesAll, ih]

end Provenance

namespace Draft

variable {d : Draft}

/-- The semantics of a forest, where there is one, are among those that satisfy `P`. -/
def Within (P : SemanticId → Prop) (forest : Option Forest) : Prop :=
  ∀ f, forest = some f → ∀ id ∈ Node.forestIds f, P id

variable {P : SemanticId → Prop} {v : Vocabulary}

theorem within_none : Within P none := by simp [Within]

theorem within_attachedOver {attachment : Option Attachment} {inner result : Option Forest}
    (hattachment : ∀ a, attachment = some a → ∀ id ∈ a.ids, P id) (hinner : Within P inner)
    (h : attachedOver v attachment inner = .ok result) : Within P result := by
  unfold attachedOver at h
  split at h
  · cases h
    exact hinner
  · cases h
    intro f hf id hid
    cases hf
    exact hattachment _ rfl id hid
  next forest innerForest =>
    intro f hf id hid
    subst hf
    obtain ⟨g, hg, heq⟩ := Outcome.map_eq_ok_iff.mp h
    cases heq
    rcases Vocabulary.mem_of_merge hg hid with hid | hid
    · exact hattachment _ rfl id hid
    · exact hinner innerForest rfl id hid
  next chain =>
    intro f hf id hid
    subst hf
    obtain ⟨g, hg, heq⟩ := Outcome.map_eq_ok_iff.mp h
    cases heq
    rcases Vocabulary.mem_of_applyChain hg hid with hid | hid
    · exact hattachment _ rfl id hid
    · cases inner with
      | none => simp [Node.forestIds] at hid
      | some innerForest => exact hinner innerForest rfl id hid

theorem within_mergeAll {parts : List (Option Forest)} {acc result : Option Forest}
    (hparts : ∀ part ∈ parts, Within P part) (hacc : Within P acc)
    (h : mergeAll v parts acc = .ok result) : Within P result := by
  induction parts generalizing acc with
  | nil =>
    cases h
    exact hacc
  | cons part parts ih =>
    have hrest := fun p hp => hparts p (List.mem_cons_of_mem _ hp)
    have hpart := hparts part (by simp)
    cases part with
    | none => exact ih hrest hacc h
    | some forest =>
      cases acc with
      | none => exact ih hrest hpart h
      | some old =>
        obtain ⟨merged, hmerged, h⟩ := Outcome.ok_of_bind h
        refine ih hrest (fun f hf id hid => ?_) h
        cases hf
        rcases Vocabulary.mem_of_merge hmerged hid with hid | hid
        · exact hacc old rfl id hid
        · exact hpart forest rfl id hid

/-- A candidate whose semantics and symbols are those of the draft. -/
structure CandidateOf (d : Draft) (c : Candidate) : Prop where
  semantic : Within d.Attaches c.semantic
  tree : ∀ name ∈ c.tree.names, ∃ X ∈ d.liveSymbols, d.symbolName X = name

theorem candidateOf_leaf {id : SymbolId} {rule : Rule} (hrule : rule ∈ d.rules id) {cost : Float}
    {text : List Segment} {c : Candidate}
    (h : leafCandidate d.vocabulary (d.symbolName id) rule.semantic cost text = .ok c) :
    d.CandidateOf c := by
  obtain ⟨semantic, hsemantic, h⟩ := Outcome.ok_of_bind h
  cases h
  constructor
  · exact within_attachedOver (fun a ha x hx => ⟨id, rule, hrule, a, ha, hx⟩) within_none hsemantic
  · intro name hname
    have heq : name = d.symbolName id := by
      simpa [Provenance.names, Provenance.namesAll] using hname
    exact ⟨id, live_of_mem_rules hrule, heq.symm⟩

theorem candidateOf_composed {id : SymbolId} {rule : Rule} (hrule : rule ∈ d.rules id)
    {parts : List Candidate} (hparts : ∀ p ∈ parts, d.CandidateOf p) {c : Candidate}
    (h : composedCandidate d.vocabulary (d.symbolName id) rule.semantic parts = .ok c) :
    d.CandidateOf c := by
  obtain ⟨inner, hinner, h⟩ := Outcome.ok_of_bind h
  obtain ⟨semantic, hsemantic, h⟩ := Outcome.ok_of_bind h
  cases h
  constructor
  · refine within_attachedOver (fun a ha x hx => ⟨id, rule, hrule, a, ha, hx⟩) ?_ hsemantic
    refine within_mergeAll (fun part hpart => ?_) within_none hinner
    obtain ⟨p, hp, rfl⟩ := List.mem_map.mp hpart
    exact (hparts p hp).semantic
  · intro name hname
    rw [Provenance.names] at hname
    rcases List.mem_cons.mp hname with rfl | hname
    · exact ⟨id, live_of_mem_rules hrule, rfl⟩
    · obtain ⟨t, ht, hname⟩ := Provenance.mem_namesAll_iff.mp hname
      obtain ⟨p, hp, rfl⟩ := List.mem_map.mp ht
      exact (hparts p hp).tree name hname

/-! ### Candidates that can be derived -/

/-- The text that a lexical expansion shows. -/
def lexicalText? (d : Draft) : Expansion → Option (List Segment)
  | .terminal term text => some (text.segments [.literal term])
  | .sequence first second text => some (text.segments
      ((first :: second.toList).flatMap (d.shownText (d.symbols.length + 1) [])))
  | _ => none

/-- The symbol can be supplied like this, by a rule over any candidates for its parts. -/
inductive Supplied (d : Draft) : SymbolId → Candidate → Prop where
  | lexical {X : SymbolId} {r : Rule} {text : List Segment} {cost : Float} {c : Candidate}
      (rule : r ∈ d.rules X) (plain : r.edit = none) (shows : d.lexicalText? r.expansion = some text)
      (priced : r.insertionCost = some cost)
      (made : leafCandidate d.vocabulary (d.symbolName X) r.semantic cost text = .ok c) :
      Supplied d X c
  | unary {X part : SymbolId} {r : Rule} {inner c : Candidate} (rule : r ∈ d.rules X)
      (plain : r.edit = none) (expansion : r.expansion = .unary part false)
      (child : Supplied d part inner)
      (made : composedCandidate d.vocabulary (d.symbolName X) r.semantic [inner] = .ok c) :
      Supplied d X c
  | binary {X first second : SymbolId} {r : Rule} {cost : Option Float} {excluded : Excluded}
      {a b c : Candidate} (rule : r ∈ d.rules X) (plain : r.edit = none)
      (expansion : r.expansion = .binary first second cost excluded)
      (allowed : excluded.any = false) (left : Supplied d first a) (right : Supplied d second b)
      (made : composedCandidate d.vocabulary (d.symbolName X) r.semantic [a, b] = .ok c) :
      Supplied d X c

theorem Supplied.candidateOf {X : SymbolId} {c : Candidate} (h : d.Supplied X c) :
    d.CandidateOf c := by
  induction h with
  | lexical hrule _ _ _ hmade => exact candidateOf_leaf hrule hmade
  | unary hrule _ _ _ hmade ih =>
    refine candidateOf_composed hrule (fun p hp => ?_) hmade
    exact List.mem_singleton.mp hp ▸ ih
  | binary hrule _ _ _ _ _ hmade ihleft ihright =>
    refine candidateOf_composed hrule (fun p hp => ?_) hmade
    rcases List.mem_cons.mp hp with rfl | hp
    · exact ihleft
    · exact List.mem_singleton.mp hp ▸ ihright

/-- All candidates found so far can be derived. -/
def Sourced (d : Draft) (best : Candidates) : Prop := ∀ p ∈ best, d.Supplied p.1 p.2

theorem Sourced.lookup {best : Candidates} (h : d.Sourced best) {id : SymbolId} {c : Candidate}
    (hc : best.lookup id = some c) : d.Supplied id c := by
  obtain ⟨before, after, rfl, -⟩ := List.lookup_eq_some_iff.mp hc
  exact h (id, c) (by simp)

theorem Sourced.supplied {best : Candidates} (h : d.Sourced best) {id : SymbolId}
    {rule : Rule} (hrule : rule ∈ d.rules id) (hplain : rule.edit = none) {c : Candidate}
    (hc : d.candidateBy best id rule = some c) : d.Supplied id c := by
  unfold candidateBy at hc
  dsimp only at hc
  split at hc
  next term text hx =>
    simp only [Option.bind_eq_bind, Option.bind_eq_some_iff] at hc
    obtain ⟨cost, hcost, hc⟩ := hc
    exact .lexical hrule hplain (by rw [hx, lexicalText?]) hcost (toOption_eq_some_iff.mp hc)
  next first second text hx =>
    simp only [Option.bind_eq_bind, Option.bind_eq_some_iff] at hc
    obtain ⟨cost, hcost, hc⟩ := hc
    exact .lexical hrule hplain (by rw [hx, lexicalText?]) hcost (toOption_eq_some_iff.mp hc)
  next => simp at hc
  next part noInsertion hx =>
    split at hc
    · simp at hc
    next hinsertion =>
      simp only [Option.bind_eq_bind, Option.bind_eq_some_iff] at hc
      obtain ⟨inner, hinner, hc⟩ := hc
      have hopen : noInsertion = false := by simpa using hinsertion
      exact .unary hrule hplain (hopen ▸ hx) (h.lookup hinner) (toOption_eq_some_iff.mp hc)
  next first second cost excluded hx =>
    split at hc
    · simp at hc
    next hexcluded =>
      simp only [Option.bind_eq_bind, Option.bind_eq_some_iff] at hc
      obtain ⟨a, ha, b, hb, hc⟩ := hc
      exact .binary hrule hplain hx (by simpa using hexcluded) (h.lookup ha) (h.lookup hb)
        (toOption_eq_some_iff.mp hc)

theorem Sourced.put {best : Candidates} (h : d.Sourced best) {id : SymbolId} {c : Candidate}
    (hc : d.Supplied id c) : d.Sourced (best.put id c) := by
  induction best with
  | nil => simpa [Sourced, Candidates.put] using hc
  | cons p best ih =>
    have hp := h p (by simp)
    have hrest := ih fun q hq => h q (List.mem_cons_of_mem _ hq)
    unfold Candidates.put
    split
    · intro q hq
      rcases List.mem_cons.mp hq with rfl | hq
      · exact hc
      · exact h q (List.mem_cons_of_mem _ hq)
    · intro q hq
      rcases List.mem_cons.mp hq with rfl | hq
      · exact hp
      · exact hrest q hq

theorem Sourced.improveBy {state : Candidates × Bool} (h : d.Sourced state.1) {id : SymbolId}
    {rule : Rule} (hrule : rule ∈ d.rules id) : d.Sourced (d.improveBy id state rule).1 := by
  unfold Draft.improveBy
  split
  · exact h
  next hedit =>
    have hplain : rule.edit = none := by simpa [Rule.isEdit] using hedit
    split
    · exact h
    next c hc =>
      split
      · exact h.put (h.supplied hrule hplain hc)
      · exact h

theorem Sourced.foldl_rules {rules : List Rule} {id : SymbolId} (hrules : rules ⊆ d.rules id)
    {state : Candidates × Bool} (h : d.Sourced state.1) :
    d.Sourced (rules.foldl (d.improveBy id) state).1 := by
  induction rules generalizing state with
  | nil => exact h
  | cons rule rules ih =>
    exact ih (fun r hr => hrules (List.mem_cons_of_mem _ hr)) (h.improveBy (hrules (by simp)))

theorem Sourced.improve {best : Candidates} (h : d.Sourced best) :
    d.Sourced (d.improve best).1 := by
  unfold Draft.improve
  generalize d.liveSymbols = ids
  suffices ∀ state : Candidates × Bool, d.Sourced state.1 → d.Sourced (ids.foldl
      (fun state id => (d.rules id).foldl (d.improveBy id) state) state).1 from
    this (best, false) h
  induction ids with
  | nil => exact fun _ h => h
  | cons id ids ih => exact fun state h => ih _ (h.foldl_rules fun _ hr => hr)

theorem sourced_candidates (d : Draft) : d.Sourced d.candidates := by
  have hrounds : ∀ (rounds : Nat) (best : Candidates), d.Sourced best →
      d.Sourced (d.improveRounds rounds best) := by
    intro rounds
    induction rounds with
    | zero => exact fun _ h => h
    | succ rounds ih =>
      intro best h
      unfold improveRounds
      dsimp only
      split
      · exact ih _ h.improve
      · exact h.improve
  exact hrounds _ [] (by simp [Sourced])

end Draft

end QueryGrammar
